import Mathlib.Data.List.Chain
import Entailment.Proofs.Occurrence

/-! Texts and their lexemes. A text may have blanks wherever two lexemes meet; it needs one
only behind a quantifier that is a word. The scanner gives back the lexemes of such a text
if no two of them could run into each other. -/
namespace Entailment

/-- A token regardless of its place. -/
structure Lexeme where
  kind : TokenKind
  spelling : List Char
deriving DecidableEq

def Token.lexeme (t : Token) : Lexeme := ⟨t.kind, t.spelling.toList⟩

namespace Lexeme

/-- An identifier. -/
def name (text : String) : Lexeme := ⟨.ident, text.toList⟩

/-- One of the spellings of a sign. -/
def Spells (l : Lexeme) (kind : TokenKind) : Prop :=
  l.kind = kind ∧ (l.spelling, kind) ∈ Token.spellings

instance (l : Lexeme) (kind : TokenKind) : Decidable (l.Spells kind) :=
  inferInstanceAs (Decidable (_ ∧ _))

/-- A sign or an identifier. -/
def Legal (l : Lexeme) : Prop :=
  l.Spells l.kind ∨ l.kind = .ident ∧ l.spelling ≠ [] ∧ ∀ c ∈ l.spelling, Token.isIdentChar c = true

/-- A quantifier that is spelled with letters. -/
def IsWord (l : Lexeme) : Prop :=
  (l.kind = .all ∨ l.kind = .ex) ∧ Token.isKeyword l.spelling = true

instance (l : Lexeme) : Decidable l.IsWord := inferInstanceAs (Decidable (_ ∧ _))

/-- Without a blank between them the two could be taken for something else: two identifiers
for one, and a negation sign before an equality or an arrow for an inequality. -/
def Clashes (l l' : Lexeme) : Prop :=
  (l.kind = .ident ∧ l'.kind = .ident) ∨ (l.kind = .not ∧ (l'.kind = .eq ∨ l'.kind = .imp))

theorem Spells.legal {l : Lexeme} {kind : TokenKind} (h : l.Spells kind) : l.Legal :=
  .inl ⟨rfl, h.1.symm ▸ h.2⟩

theorem Spells.kind_ne {l : Lexeme} {kind kind' : TokenKind} (h : l.Spells kind)
    (hne : kind ≠ kind') : l.kind ≠ kind' :=
  h.1.symm ▸ hne

theorem legal_name {text : String} (h : Token.IsName text) : (name text).Legal :=
  .inr ⟨rfl, fun hnil => h.1 (String.toList_eq_nil_iff.mp hnil), h.2⟩

end Lexeme

/-- The text consists of the lexemes, with blanks before, between and behind them. -/
inductive Writes : List Char → List Lexeme → Prop
  | blanks {ws} (hws : ∀ c ∈ ws, Text.isBlank c = true) : Writes ws []
  | lexeme {ws l cs ls} (hws : ∀ c ∈ ws, Text.isBlank c = true)
      (hword : l.IsWord → cs.head?.any Text.isBlank = true) (hcs : Writes cs ls) :
    Writes (ws ++ l.spelling ++ cs) (l :: ls)

/-- Takes the lexemes off the text one by one. -/
def checkWrites : List Char → List Lexeme → Bool
  | cs, [] => cs.all Text.isBlank
  | cs, l :: ls =>
    let cs := cs.dropWhile Text.isBlank
    let rest := cs.drop l.spelling.length
    l.spelling == cs.take l.spelling.length && (!l.IsWord || rest.head?.any Text.isBlank) &&
      checkWrites rest ls

theorem writes_of_checkWrites {cs : List Char} {ls : List Lexeme} (h : checkWrites cs ls = true) :
    Writes cs ls := by
  induction ls generalizing cs with
  | nil => exact .blanks (List.all_eq_true.mp h)
  | cons l ls ih =>
    simp only [checkWrites, Bool.and_eq_true, Bool.or_eq_true, Bool.not_eq_true',
      decide_eq_false_iff_not, beq_iff_eq] at h
    obtain ⟨⟨hspelling, hword⟩, hrest⟩ := h
    have htail := List.take_append_drop l.spelling.length (cs.dropWhile Text.isBlank)
    rw [← hspelling] at htail
    rw [← List.takeWhile_append_dropWhile (p := Text.isBlank) (l := cs), ← htail,
      ← List.append_assoc]
    exact .lexeme (List.all_eq_true.mp List.all_takeWhile) (fun h => hword.resolve_left (absurd h))
      (ih hrest)

namespace Token

theorem not_isBlank_of_isIdentChar {c : Char} (h : isIdentChar c = true) :
    Text.isBlank c = false := by
  have hrange : 33 ≤ c.toNat ∧ c.toNat < 128 := by
    change ((decide (c.val ≥ 'A'.val ∧ c.val ≤ 'Z'.val) || c.val ≥ 'a'.val && c.val ≤ 'z'.val) ||
      (c.val ≥ '0'.val && c.val ≤ '9'.val) || c == '_') = true at h
    simp only [Bool.or_eq_true, Bool.and_eq_true, decide_eq_true_eq, beq_iff_eq, ge_iff_le,
      UInt32.le_iff_toNat_le] at h
    change (((65 ≤ c.toNat ∧ c.toNat ≤ 90) ∨ (97 ≤ c.toNat ∧ c.toNat ≤ 122)) ∨
      (48 ≤ c.toNat ∧ c.toNat ≤ 57)) ∨ c = '_' at h
    rcases h with h | rfl
    · omega
    · decide
  simp only [Text.isBlank, List.any_eq_false, Bool.and_eq_true, decide_eq_true_eq, not_and]
  intro r hr
  have houtside : ∀ r ∈ Text.blankRanges, r.2 < 33 ∨ 128 ≤ r.1 := by decide
  have := houtside r hr
  omega

/-- The character can begin a sign: it is neither a blank nor part of an identifier, and
only an equality sign or an arrow begins like an equality sign. -/
def beginsSign (kind : TokenKind) (c : Char) : Bool :=
  !isIdentChar c && !Text.isBlank c && c != '>' && (c != '=' || kind = .eq || kind = .imp)

theorem beginsSign_of_mem : ∀ p ∈ spellings, p.1.head?.any (beginsSign p.2) = true := by
  decide

/-- A spelling stands before its prefixes, and where it goes on after one of them, it does so
with one of two characters. -/
theorem spellings_pairwise : spellings.Pairwise fun e p => ¬ e.1 <+: p.1 ∧
    (p.1 <+: e.1 → p.2 = .not ∧ e.1 = p.1 ++ ['='] ∨ e.1 = p.1 ++ ['>']) := by
  decide

theorem first?_sign {spelling cs : List Char} {kind : TokenKind}
    (h : (spelling, kind) ∈ spellings)
    (hword : isKeyword spelling = true → cs.head?.any isIdentChar = false)
    (hnot : kind = .not → cs.head? ≠ some '=') (heq : cs.head? ≠ some '>') :
    first? (spelling ++ cs) = some (kind, spelling) := by
  have hhead := beginsSign_of_mem _ h
  have hident : (spelling ++ cs).head?.any isIdentChar = false := by
    rcases spelling with _ | ⟨c, spelling⟩
    · cases hhead
    · simp only [beginsSign, List.head?_cons, Option.any_some, Bool.and_eq_true,
        Bool.not_eq_true'] at hhead
      exact hhead.1.1.1
  have hself : startsWith (spelling ++ cs) spelling = true := by
    have hnext : (isKeyword spelling && cs.head?.any isIdentChar) = false := by
      rcases hkeyword : isKeyword spelling with _ | _
      · rfl
      · exact hword hkeyword
    simp [startsWith, hnext]
  have hfind : (spellings.find? fun s => startsWith (spelling ++ cs) s.1) = some (spelling, kind) := by
    obtain ⟨as, bs, hsplit⟩ := List.append_of_mem h
    refine List.find?_eq_some_iff_append.mpr ⟨hself, as, bs, hsplit, fun e he => ?_⟩
    have hpair := spellings_pairwise
    rw [hsplit, List.pairwise_append] at hpair
    obtain ⟨hshorter, hlonger⟩ := hpair.2.2 e he _ List.mem_cons_self
    -- An earlier spelling that fits is longer, and its next character would be the one behind.
    by_contra hstarts
    simp only [Bool.not_eq_true', Bool.not_eq_false, startsWith, Bool.and_eq_true,
      List.isPrefixOf_iff_prefix] at hstarts
    rcases List.prefix_or_prefix_of_prefix hstarts.1 (List.prefix_append spelling cs) with hle | hle
    · exact hshorter hle
    · have hnext {c : Char} (hc : e.1 = spelling ++ [c]) : cs.head? = some c := by
        have hle := hstarts.1
        rw [hc, List.prefix_append_right_inj] at hle
        obtain ⟨rest, rfl⟩ := hle
        rfl
      rcases hlonger hle with ⟨hkind, hc⟩ | hc
      · exact hnot hkind (hnext hc)
      · exact heq (hnext hc)
  unfold first?
  rw [hident, hfind]
  rfl

theorem first?_name {spelling cs : List Char} (hne : spelling ≠ [])
    (h : ∀ c ∈ spelling, isIdentChar c = true) (hnext : cs.head?.any isIdentChar = false) :
    first? (spelling ++ cs) = some (.ident, spelling) := by
  have hstop : cs.takeWhile isIdentChar = [] := by
    rcases cs with _ | ⟨c, cs⟩
    · rfl
    · exact List.takeWhile_cons_of_neg (by simpa using hnext)
  have htake : (spelling ++ cs).takeWhile isIdentChar = spelling := by
    rw [List.takeWhile_append_of_pos h, hstop, List.append_nil]
  have hhead : (spelling ++ cs).head?.any isIdentChar = true := by
    rcases spelling with _ | ⟨c, spelling⟩
    · exact absurd rfl hne
    · exact h c List.mem_cons_self
  unfold first?
  rw [hhead, htake]
  rfl

end Token

theorem Lexeme.Legal.head {l : Lexeme} (h : l.Legal) : ∃ c rest, l.spelling = c :: rest ∧
    Text.isBlank c = false ∧ c ≠ '>' ∧ (Token.isIdentChar c = true → l.kind = .ident) ∧
    (c = '=' → l.kind = .eq ∨ l.kind = .imp) := by
  rcases h with ⟨-, hsign⟩ | ⟨hkind, hne, hident⟩
  · have hhead := Token.beginsSign_of_mem _ hsign
    rcases hspelling : l.spelling with _ | ⟨c, rest⟩
    · rw [hspelling] at hhead
      cases hhead
    · simp only [hspelling, Token.beginsSign, List.head?_cons, Option.any_some, Bool.and_eq_true,
        Bool.not_eq_true', Bool.or_eq_true, bne_iff_ne, decide_eq_true_eq] at hhead
      obtain ⟨⟨⟨hc, hblank⟩, harrow⟩, hequal⟩ := hhead
      refine ⟨c, rest, rfl, hblank, harrow, fun hc' => ?_, fun hc' => ?_⟩
      · rw [hc] at hc'
        cases hc'
      · simpa [hc'] using hequal
  · rcases hspelling : l.spelling with _ | ⟨c, rest⟩
    · exact absurd hspelling hne
    · have hc := hident c (hspelling ▸ List.mem_cons_self)
      refine ⟨c, rest, rfl, Token.not_isBlank_of_isIdentChar hc, ?_, fun _ => hkind, ?_⟩
      · rintro rfl
        exact absurd hc (by decide)
      · rintro rfl
        exact absurd hc (by decide)

namespace Writes

variable {cs : List Char} {ls : List Lexeme}

/-- What a text begins with: a blank or its first lexeme. -/
theorem head (h : Writes cs ls) {c : Char} (hc : cs.head? = some c) (hlegal : ∀ l ∈ ls, l.Legal) :
    Text.isBlank c = true ∨ ∃ l ∈ ls.head?, l.spelling.head? = some c := by
  cases h with
  | blanks hws => exact .inl (hws c (List.mem_of_mem_head? hc))
  | @lexeme ws l cs ls hws _ _ =>
    rcases ws with _ | ⟨w, ws⟩
    · obtain ⟨d, rest, hspelling, -⟩ := (hlegal l List.mem_cons_self).head
      refine .inr ⟨l, rfl, ?_⟩
      rw [hspelling] at hc ⊢
      exact hc
    · cases hc
      exact .inl (hws _ List.mem_cons_self)

/-- The scanner takes the first lexeme off a text. What follows the lexeme cannot prolong it. -/
theorem first? {l : Lexeme} (h : Writes cs ls) (hlegal : ∀ l' ∈ l :: ls, l'.Legal)
    (hchain : (l :: ls).IsChain fun l l' => ¬ l.Clashes l')
    (hword : l.IsWord → cs.head?.any Text.isBlank = true) :
    Token.first? (l.spelling ++ cs) = some (l.kind, l.spelling) := by
  obtain ⟨hl, hls⟩ := List.forall_mem_cons.mp hlegal
  obtain ⟨hclash, -⟩ := List.isChain_cons.mp hchain
  -- The character behind is blank or starts the next lexeme, which does not clash with this one.
  have hnext {c : Char} (hc : cs.head? = some c) : Text.isBlank c = true ∨ (c ≠ '>' ∧
      (Token.isIdentChar c = true → l.kind ≠ .ident) ∧ (c = '=' → l.kind ≠ .not)) := by
    rcases h.head hc hls with hblank | ⟨l', hl', hspelling⟩
    · exact .inl hblank
    · obtain ⟨d, rest, hspelling', -, harrow, hident, hequal⟩ :=
        (hls l' (List.mem_of_mem_head? hl')).head
      rw [hspelling'] at hspelling
      cases hspelling
      refine .inr ⟨harrow, fun hc hkind => ?_, fun hc hkind => ?_⟩
      · exact hclash l' hl' (.inl ⟨hkind, hident hc⟩)
      · exact hclash l' hl' (.inr ⟨hkind, hequal hc⟩)
  have hident {c : Char} (hc : Text.isBlank c = true) : Token.isIdentChar c = false := by
    by_contra hident
    rw [Token.not_isBlank_of_isIdentChar (by simpa using hident)] at hc
    cases hc
  rcases hl with ⟨-, hsign⟩ | ⟨hkind, hne, hname⟩
  · refine Token.first?_sign hsign (fun hkeyword => ?_) (fun hkind hc => ?_) (fun hc => ?_)
    · have hquantifier : ∀ p ∈ Token.spellings, Token.isKeyword p.1 = true →
          p.2 = .all ∨ p.2 = .ex := by decide
      have hblank := hword ⟨hquantifier _ hsign hkeyword, hkeyword⟩
      rcases hc : cs.head? with _ | c
      · rfl
      · rw [hc] at hblank
        exact hident hblank
    · rcases hnext hc with hblank | ⟨-, -, hequal⟩
      · exact absurd hblank (by decide)
      · exact hequal rfl hkind
    · rcases hnext hc with hblank | ⟨harrow, -⟩
      · exact absurd hblank (by decide)
      · exact harrow rfl
  · rw [hkind]
    refine Token.first?_name hne hname ?_
    rcases hc : cs.head? with _ | c
    · rfl
    · rcases hnext hc with hblank | ⟨-, hother, -⟩
      · exact hident hblank
      · simpa using fun hc => hother hc hkind

/-- The scanner finds the lexemes of a text again. -/
theorem scanFrom (h : Writes cs ls) (hlegal : ∀ l ∈ ls, l.Legal)
    (hchain : ls.IsChain fun l l' => ¬ l.Clashes l') {fuel : Nat} (hfuel : cs.length ≤ fuel)
    (pos : Nat) : (Token.scanFrom fuel pos cs).tokens.map Token.lexeme = ls ∧
      (Token.scanFrom fuel pos cs).stop = none := by
  induction h generalizing fuel pos with
  | @blanks ws hws =>
    rcases fuel with _ | fuel
    · exact ⟨rfl, rfl⟩
    · have hdrop : ws.dropWhile Text.isBlank = [] := by
        rw [← List.append_nil ws, List.dropWhile_append_of_pos hws, List.dropWhile_nil]
      rw [Token.scanFrom, hdrop]
      exact ⟨rfl, rfl⟩
  | @lexeme ws l cs ls hws hword hcs ih =>
    have hfirst := hcs.first? hlegal hchain hword
    rw [List.forall_mem_cons] at hlegal
    obtain ⟨c, rest, hspelling, hblank, -⟩ := hlegal.1.head
    simp only [List.length_append, hspelling, List.length_cons] at hfuel
    obtain ⟨fuel, rfl⟩ : ∃ n, fuel = n + 1 := ⟨fuel - 1, by omega⟩
    obtain ⟨htokens, hstop⟩ := ih hlegal.2 (List.isChain_cons.mp hchain).2
      (show cs.length ≤ fuel by omega)
      (pos + Text.byteCount ((ws ++ l.spelling ++ cs).takeWhile Text.isBlank) +
        Text.byteCount l.spelling)
    have hdrop : (ws ++ l.spelling ++ cs).dropWhile Text.isBlank = c :: (rest ++ cs) := by
      rw [List.append_assoc, List.dropWhile_append_of_pos hws, hspelling, List.cons_append,
        List.dropWhile_cons_of_neg (by simp [hblank])]
    have hbehind : (c :: (rest ++ cs)).drop l.spelling.length = cs := by
      rw [hspelling, ← List.cons_append, List.drop_left]
    have hfirst' : Token.first? (c :: (rest ++ cs)) = some (l.kind, l.spelling) := by
      rw [← hfirst, hspelling, List.cons_append]
    rw [Token.scanFrom, hdrop]
    dsimp only
    rw [hfirst']
    dsimp only
    rw [hbehind]
    refine ⟨?_, hstop⟩
    rw [List.map_cons, htokens, Token.lexeme, String.toList_ofList]

end Writes

theorem Token.scan_of_writes {text : String} {ls : List Lexeme} (h : Writes text.toList ls)
    (hlegal : ∀ l ∈ ls, l.Legal) (hchain : ls.IsChain fun l l' => ¬ l.Clashes l') :
    (scan text).tokens.map lexeme = ls ∧ (scan text).stop = none :=
  h.scanFrom hlegal hchain le_rfl 0

end Entailment
