import Entailment.Formula.Token
import Mathlib.Data.List.Basic

/-! Tokens tile their text. Between them, before the first and behind the last there are
only blanks, and a reader that keeps nothing but a byte offset never cuts a character. -/
namespace Entailment

namespace Text

/-- The part of a text between two byte offsets. There is none unless both lie between
characters. -/
def slice? (text : String) (start stop : Nat) : Option String :=
  if (⟨start⟩ : String.Pos.Raw).IsValid text ∧ (⟨stop⟩ : String.Pos.Raw).IsValid text ∧
      start ≤ stop then
    String.fromUTF8? (text.toUTF8.extract start stop)
  else none

theorem utf8ByteSize_ofList (cs : List Char) : (String.ofList cs).utf8ByteSize = byteCount cs := by
  induction cs with
  | nil => rfl
  | cons c cs ih =>
    rw [String.ofList_cons, String.utf8ByteSize_append, String.utf8ByteSize_singleton, ih]
    rfl

theorem utf8ByteSize_eq (text : String) : text.utf8ByteSize = byteCount text.toList := by
  rw [← utf8ByteSize_ofList, String.ofList_toList]

theorem fromUTF8?_toByteArray (text : String) : String.fromUTF8? text.toByteArray = some text :=
  dif_pos text.isValidUTF8

theorem isValid_byteCount {text : String} {before behind : List Char}
    (h : text.toList = before ++ behind) :
    (⟨byteCount before⟩ : String.Pos.Raw).IsValid text := by
  refine String.Pos.Raw.isValid_iff_exists_append.mpr ⟨.ofList before, .ofList behind, ?_, ?_⟩
  · rw [← String.ofList_append, ← h, String.ofList_toList]
  · rw [String.Pos.Raw.ext_iff, String.byteIdx_rawEndPos, utf8ByteSize_ofList]

/-- Between the offsets of two places in a text lies what stands between these places. -/
theorem slice?_eq {text : String} {before cs behind : List Char}
    (h : text.toList = before ++ cs ++ behind) :
    slice? text (byteCount before) (byteCount (before ++ cs)) = some (.ofList cs) := by
  have hbytes : text.toUTF8 = (String.ofList before).toByteArray ++
      ((String.ofList cs).toByteArray ++ (String.ofList behind).toByteArray) := by
    rw [← String.toByteArray_append, ← String.toByteArray_append, ← String.ofList_append,
      ← String.ofList_append, ← List.append_assoc, ← h, String.ofList_toList]
    rfl
  have hsize (ds : List Char) : byteCount ds = (String.ofList ds).toByteArray.size :=
    (utf8ByteSize_ofList ds).symm
  have hle : byteCount before ≤ byteCount (before ++ cs) := by
    rw [byteCount_append]
    exact Nat.le_add_right _ _
  rw [slice?, if_pos ⟨isValid_byteCount (h.trans (List.append_assoc ..)), isValid_byteCount h, hle⟩,
    hbytes, byteCount_append, ← Nat.add_zero (byteCount before), Nat.add_assoc, Nat.zero_add,
    hsize before, ByteArray.extract_append_size_add, ByteArray.extract_append_eq_left (hsize cs),
    fromUTF8?_toByteArray]

theorem slice?_end {text : String} {before cs : List Char} (h : text.toList = before ++ cs) :
    slice? text (byteCount before) text.utf8ByteSize = some (.ofList cs) := by
  rw [utf8ByteSize_eq, h]
  exact slice?_eq (h.trans (List.append_nil _).symm)

end Text

/-- The offset of the first byte behind the token. -/
def Token.after (t : Token) : Nat := t.pos + t.spelling.utf8ByteSize

namespace TokenStream

/-- Where reading came to an end in a text of `size` bytes. -/
def limit (s : TokenStream) (size : Nat) : Nat := s.stop.elim size UnknownChar.pos

/-- What no token covers from `start` on: the offsets of the parts before the first token, between
the tokens and behind the last one. -/
def gaps (s : TokenStream) (start size : Nat) : List (Nat × Nat) :=
  (start :: s.tokens.map Token.after).zip (s.tokens.map Token.pos ++ [s.limit size])

theorem gaps_nil (stop : Option UnknownChar) (start size : Nat) :
    gaps ⟨[], stop⟩ start size = [(start, limit ⟨[], stop⟩ size)] := rfl

theorem gaps_cons (t : Token) (s : TokenStream) (start size : Nat) :
    gaps ⟨t :: s.tokens, s.stop⟩ start size = (start, t.pos) :: s.gaps t.after size := rfl

end TokenStream

namespace Token

/-- Whether the text starts with the spelling. What follows is looked at only behind a keyword. -/
def fits? (cs spelling : List Char) : Option Bool :=
  if spelling.isPrefixOf cs && isKeyword spelling then
    (Text.slice? (.ofList cs) (Text.byteCount spelling) (Text.byteCount cs)).map
      fun rest => !rest.toList.head?.any isIdentChar
  else some (spelling.isPrefixOf cs)

/-- The kind of the token that starts a text and the number of its bytes. -/
def measure? (cs : List Char) : Option (Option (TokenKind × Nat)) :=
  if cs.head?.any isIdentChar then
    some (some (.ident, Text.byteCount (cs.takeWhile isIdentChar)))
  else
    (spellings.findM? fun s => fits? cs s.1).map
      fun found => found.map fun s => (s.2, Text.byteCount s.1)

/-- What a reader gives for the rest `cs` of a text, which starts with no blank, and the offset
it goes on from. -/
def take? (text : String) (pos : Nat) (cs : List Char) :
    Option (Option (Except UnknownChar Token) × Nat) :=
  match cs with
  | [] => some (none, pos)
  | c :: cs => do
    match ← measure? (c :: cs) with
    | none => return (some (.error ⟨c, pos⟩), text.utf8ByteSize)
    | some (kind, size) =>
      let spelling ← Text.slice? text pos (pos + size)
      return (some (.ok ⟨kind, spelling, pos⟩), pos + size)

/-- One step of a reader that keeps only the offset it has reached. There is no result if it
would cut a character. -/
def step? (text : String) (pos : Nat) : Option (Option (Except UnknownChar Token) × Nat) := do
  let rest ← Text.slice? text pos text.utf8ByteSize
  let trimmed := Text.trimLeft rest.toList
  take? text (pos + (rest.utf8ByteSize - Text.byteCount trimmed)) trimmed

/-- From the offset on the reader gives the items and then comes to the end. -/
inductive Reads (text : String) : Nat → List (Except UnknownChar Token) → Prop
  | done {pos pos'} (h : step? text pos = some (none, pos')) : Reads text pos []
  | item {pos pos' i is} (h : step? text pos = some (some i, pos')) (hrest : Reads text pos' is) :
    Reads text pos (i :: is)

theorem fits?_eq (cs spelling : List Char) : fits? cs spelling = some (startsWith cs spelling) := by
  unfold fits? startsWith
  cases hkeyword : isKeyword spelling with
  | false => simp
  | true =>
    cases hle : spelling.isPrefixOf cs with
    | false => rfl
    | true =>
      obtain ⟨rest, rfl⟩ := List.isPrefixOf_iff_prefix.mp hle
      have hslice := Text.slice?_eq
        (show (String.ofList (spelling ++ rest)).toList = spelling ++ rest ++ [] by simp)
      rw [hslice]
      simp

theorem measure?_eq (cs : List Char) :
    measure? cs = some ((first? cs).map fun found => (found.1, Text.byteCount found.2)) := by
  unfold measure? first?
  split
  · rfl
  · have hfind := List.findM?_pure (m := Option) (fun s => startsWith cs s.1) spellings
    simp only [fits?_eq]
    rw [show (fun s : List Char × TokenKind => some (startsWith cs s.1)) =
      fun s => pure (startsWith cs s.1) from rfl, hfind]
    simp [Function.comp_def]

/-- A token takes at least one character off the text. -/
theorem exists_of_first? {c : Char} {cs : List Char} {kind : TokenKind} {spelling : List Char}
    (h : first? (c :: cs) = some (kind, spelling)) :
    ∃ more rest, spelling = c :: more ∧ cs = more ++ rest := by
  have hle : spelling <+: c :: cs ∧ spelling ≠ [] := by
    unfold first? at h
    split at h
    · rename_i hc
      cases h
      have hc : isIdentChar c = true := hc
      refine ⟨?_, by simp [hc]⟩
      exact List.takeWhile_prefix _
    · obtain ⟨s, hs, heq⟩ := Option.map_eq_some_iff.mp h
      cases heq
      have hne : ∀ s ∈ spellings, s.1 ≠ [] := by decide
      have hstarts := List.find?_some hs
      rw [startsWith, Bool.and_eq_true, List.isPrefixOf_iff_prefix] at hstarts
      exact ⟨hstarts.1, hne s (List.mem_of_find?_eq_some hs)⟩
  obtain ⟨⟨rest, hrest⟩, hne⟩ := hle
  obtain ⟨d, more, rfl⟩ := List.exists_cons_of_ne_nil hne
  rw [List.cons_append, List.cons.injEq] at hrest
  exact ⟨more, rest, by rw [hrest.1], hrest.2.symm⟩

/-- How the rest `cs` of a text is split, of which `before` has been read: blanks and tokens by
turns, up to the end or to a character that starts no token. -/
inductive Tiles : List Char → List Char → TokenStream → Prop
  | blanks {before ws} (hws : ∀ c ∈ ws, Text.isBlank c = true) : Tiles before ws ⟨[], none⟩
  | unknown {before ws c cs} (hws : ∀ c ∈ ws, Text.isBlank c = true)
      (hc : Text.isBlank c = false) (hfirst : first? (c :: cs) = none) :
    Tiles before (ws ++ c :: cs) ⟨[], some ⟨c, Text.byteCount (before ++ ws)⟩⟩
  | token {before ws c more cs kind s} (hws : ∀ c ∈ ws, Text.isBlank c = true)
      (hc : Text.isBlank c = false) (hfirst : first? (c :: more ++ cs) = some (kind, c :: more))
      (hrest : Tiles (before ++ ws ++ c :: more) cs s) :
    Tiles before (ws ++ c :: more ++ cs)
      ⟨⟨kind, .ofList (c :: more), Text.byteCount (before ++ ws)⟩ :: s.tokens, s.stop⟩

theorem tiles_scanFrom {fuel : Nat} {cs : List Char} (h : cs.length ≤ fuel) (before : List Char) :
    Tiles before cs (scanFrom fuel (Text.byteCount before) cs) := by
  induction fuel generalizing before cs with
  | zero =>
    rw [List.length_eq_zero_iff.mp (Nat.le_zero.mp h)]
    exact .blanks (by simp)
  | succ fuel ih =>
    have hws : ∀ c ∈ cs.takeWhile Text.isBlank, Text.isBlank c = true :=
      List.all_eq_true.mp List.all_takeWhile
    have hhead := List.head?_dropWhile_not Text.isBlank cs
    have hsplit := List.takeWhile_append_dropWhile (p := Text.isBlank) (l := cs)
    rw [scanFrom, ← Text.byteCount_append]
    generalize cs.takeWhile Text.isBlank = ws at hws hsplit ⊢
    generalize cs.dropWhile Text.isBlank = rest at hhead hsplit ⊢
    subst hsplit
    rcases rest with _ | ⟨c, rest⟩
    · rw [List.append_nil]
      exact .blanks hws
    · have hc : Text.isBlank c = false := by simpa using hhead
      rcases hfirst : first? (c :: rest) with _ | ⟨kind, spelling⟩
      · simp only [hfirst]
        exact .unknown hws hc hfirst
      · obtain ⟨more, rest, rfl, rfl⟩ := exists_of_first? hfirst
        have hdrop : (c :: (more ++ rest)).drop (c :: more).length = rest := List.drop_left
        simp only [List.length_append, List.length_cons] at h
        simp only [hfirst, hdrop, ← Text.byteCount_append]
        rw [← List.cons_append, ← List.append_assoc]
        exact .token hws hc hfirst (ih (by omega) _)

section

variable {text : String} {before ws cs : List Char}

/-- The reader first passes the blanks at its offset. -/
theorem step?_eq (htext : text.toList = before ++ (ws ++ cs))
    (hws : ∀ c ∈ ws, Text.isBlank c = true) (hcs : cs.head?.any Text.isBlank = false) :
    step? text (Text.byteCount before) = take? text (Text.byteCount (before ++ ws)) cs := by
  have hdrop : cs.dropWhile Text.isBlank = cs := by
    rcases cs with _ | ⟨c, cs⟩
    · rfl
    · exact List.dropWhile_cons_of_neg (by simpa using hcs)
  have htrim : Text.trimLeft (String.ofList (ws ++ cs)).toList = cs := by
    rw [String.toList_ofList, Text.trimLeft, List.dropWhile_append_of_pos hws, hdrop]
  have hpos : Text.byteCount before +
      ((String.ofList (ws ++ cs)).utf8ByteSize - Text.byteCount cs) =
      Text.byteCount (before ++ ws) := by
    rw [Text.utf8ByteSize_ofList, Text.byteCount_append, Text.byteCount_append,
      Nat.add_sub_cancel]
  rw [step?, Text.slice?_end htext]
  exact (congrArg (fun cs' => take? text (_ + (_ - Text.byteCount cs')) cs') htrim).trans
    (congrArg (fun pos => take? text pos cs) hpos)

theorem reads_end (text : String) : Reads text text.utf8ByteSize [] := by
  have htext : text.toList = text.toList ++ ([] ++ []) := by simp
  have hstep := step?_eq htext (by simp) rfl
  rw [← Text.utf8ByteSize_eq] at hstep
  exact .done hstep

/-- The reader gives the tokens and then the character that stopped them. -/
theorem Tiles.reads {s : TokenStream} (h : Tiles before cs s) (htext : text.toList = before ++ cs) :
    Reads text (Text.byteCount before) (s.tokens.map .ok ++ s.stop.toList.map .error) := by
  induction h with
  | @blanks before ws hws =>
    have hend : text.toList = before ++ (ws ++ []) := by rw [htext, List.append_nil]
    exact .done (step?_eq hend hws rfl)
  | @unknown before ws c cs hws hc hfirst =>
    refine .item ?_ (reads_end text)
    rw [step?_eq htext hws hc, take?, measure?_eq, hfirst]
    rfl
  | @token before ws c more cs kind s hws hc hfirst _ ih =>
    rw [List.append_assoc] at htext
    have hsplit : text.toList = before ++ ws ++ c :: more ++ cs := by simp [htext]
    have hslice := Text.slice?_eq hsplit
    rw [Text.byteCount_append _ (c :: more)] at hslice
    refine .item ?_ (ih hsplit)
    rw [step?_eq htext hws hc, List.cons_append, take?, ← List.cons_append, measure?_eq, hfirst,
      Text.byteCount_append _ (c :: more)]
    simp only [Option.map_some, Option.bind_eq_bind, Option.bind_some, hslice]
    rfl

theorem after_eq (kind : TokenKind) (before spelling : List Char) :
    after ⟨kind, .ofList spelling, Text.byteCount before⟩ =
      Text.byteCount (before ++ spelling) := by
  rw [after, Text.utf8ByteSize_ofList, Text.byteCount_append]

namespace Tiles

variable {s : TokenStream}

theorem slice_spelling (h : Tiles before cs s) (htext : text.toList = before ++ cs) :
    ∀ t ∈ s.tokens, t.spelling ≠ "" ∧ Text.slice? text t.pos t.after = some t.spelling := by
  induction h with
  | blanks | unknown => simp
  | @token before ws c more cs kind s _ _ _ _ ih =>
    have hsplit : text.toList = before ++ ws ++ c :: more ++ cs := by simp [htext]
    refine List.forall_mem_cons.mpr ⟨⟨by simp, ?_⟩, ih hsplit⟩
    rw [after_eq]
    exact Text.slice?_eq hsplit

theorem le_pos (h : Tiles before cs s) : ∀ t ∈ s.tokens, Text.byteCount before ≤ t.pos := by
  induction h with
  | blanks | unknown => simp
  | token _ _ _ _ ih =>
    simp only [Text.byteCount_append] at ih ⊢
    refine List.forall_mem_cons.mpr ⟨Nat.le_add_right _ _, fun t ht => ?_⟩
    have hle := ih t ht
    omega

theorem pairwise (h : Tiles before cs s) : s.tokens.Pairwise fun t u => t.after ≤ u.pos := by
  induction h with
  | blanks | unknown => exact .nil
  | token _ _ _ hrest ih =>
    refine List.pairwise_cons.mpr ⟨fun t ht => ?_, ih⟩
    rw [after_eq]
    exact hrest.le_pos t ht

theorem isBlank_gaps (h : Tiles before cs s) (htext : text.toList = before ++ cs) :
    ∀ g ∈ s.gaps (Text.byteCount before) text.utf8ByteSize,
      ∃ ws, Text.slice? text g.1 g.2 = some ws ∧ ∀ c ∈ ws.toList, Text.isBlank c = true := by
  induction h with
  | @blanks before ws hws =>
    rw [TokenStream.gaps_nil, List.forall_mem_singleton]
    exact ⟨.ofList ws, Text.slice?_end htext, by simpa using hws⟩
  | @unknown before ws c cs hws _ _ =>
    rw [TokenStream.gaps_nil, List.forall_mem_singleton]
    exact ⟨.ofList ws, Text.slice?_eq (htext.trans (List.append_assoc ..).symm), by simpa using hws⟩
  | @token before ws c more cs kind s hws _ _ _ ih =>
    have hsplit : text.toList = before ++ ws ++ c :: more ++ cs := by simp [htext]
    rw [TokenStream.gaps_cons, List.forall_mem_cons, after_eq]
    refine ⟨⟨.ofList ws, ?_, by simpa using hws⟩, ih hsplit⟩
    exact Text.slice?_eq (hsplit.trans (List.append_assoc ..))

theorem slice_stop (h : Tiles before cs s) (htext : text.toList = before ++ cs) :
    ∀ u ∈ s.stop, Text.isBlank u.char = false ∧
      ∃ rest, Text.slice? text u.pos text.utf8ByteSize = some (.ofList (u.char :: rest)) := by
  induction h with
  | blanks => simp
  | @unknown before ws c cs _ hc _ =>
    rintro u ⟨⟩
    exact ⟨hc, cs, Text.slice?_end (htext.trans (List.append_assoc ..).symm)⟩
  | token _ _ _ _ ih => exact ih (by simp [htext])

end Tiles

end

/-- A reader with nothing but a byte offset comes to the end of every text without a cut through a
character and gives the tokens and at most one complaint, as the last item. The tokens do not
overlap and each is what stands at its place, what they leave out up to the end or the complaint
is blank, and the complaint is about the next character. -/
theorem scan_tiles (text : String) :
    Reads text 0 ((scan text).tokens.map .ok ++ (scan text).stop.toList.map .error) ∧
    (∀ t ∈ (scan text).tokens,
      t.spelling ≠ "" ∧ Text.slice? text t.pos t.after = some t.spelling) ∧
    (scan text).tokens.Pairwise (fun t u => t.pos < u.pos ∧ t.after ≤ u.pos) ∧
    (∀ g ∈ (scan text).gaps 0 text.utf8ByteSize,
      ∃ ws, Text.slice? text g.1 g.2 = some ws ∧ ∀ c ∈ ws.toList, Text.isBlank c = true) ∧
    ∀ u ∈ (scan text).stop, Text.isBlank u.char = false ∧
      ∃ rest, Text.slice? text u.pos text.utf8ByteSize = some (.ofList (u.char :: rest)) := by
  have htiles : Tiles [] text.toList (scan text) := tiles_scanFrom (Nat.le_refl _) []
  have hspelling := htiles.slice_spelling rfl
  refine ⟨htiles.reads rfl, hspelling, htiles.pairwise.imp_of_mem ?_, htiles.isBlank_gaps rfl,
    htiles.slice_stop rfl⟩
  intro t u ht _ hle
  have hsize : t.spelling.utf8ByteSize ≠ 0 := by simpa using (hspelling t ht).1
  exact ⟨Nat.lt_of_lt_of_le (Nat.lt_add_of_pos_right (Nat.pos_of_ne_zero hsize)) hle, hle⟩

end Token

end Entailment
