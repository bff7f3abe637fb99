import Entailment.Json.Reader
import Mathlib.Data.List.Basic

/-! Indented JSON text is read back as the value it was written for, as long as
the value is made of strings, arrays and objects. -/
namespace Entailment.Json

/-! ## Strings -/

/-- The piece as which a character is read back. -/
def piece (c : Char) : Piece :=
  if c.toNat < 32 ∧ c ∉ ['\x08', '\x0c', '\n', '\r', '\t'] then .unit c.toNat else .char c

theorem hexValue?_hexDigit {n : Nat} (h : n < 16) : hexValue? (hexDigit n) = some n := by
  have hall : ∀ n : Fin 16, hexValue? (hexDigit n) = some n.val := by decide
  exact hall ⟨n, h⟩

theorem codeUnit?_hexDigit {n : Nat} (h : n < 256) :
    codeUnit? '0' '0' (hexDigit (n / 16)) (hexDigit (n % 16)) = some n := by
  have hzero : hexValue? '0' = some 0 := by decide
  unfold codeUnit?
  rw [hexValue?_hexDigit (Nat.div_lt_of_lt_mul h), hexValue?_hexDigit (Nat.mod_lt n (by decide)),
    hzero]
  simp only [Option.bind_eq_bind, Option.bind_some, Option.pure_def, Option.some.injEq]
  omega

theorem readPieces_plain {c : Char} (h : 32 ≤ c.toNat) (hquote : c ≠ '"') (hslash : c ≠ '\\')
    (cs : List Char) :
    readPieces (c :: cs) = (readPieces cs).map fun p => (.char c :: p.1, p.2) := by
  have hpass : ¬ (decide (c.toNat < 32) || c == '\\') = true := by
    simp [Nat.not_lt.mpr h, hslash]
  rw [readPieces, if_neg hpass, Option.map_eq_bind]
  · rfl
  · exact hquote
  · exact fun _ _ _ _ _ hc => absurd hc hslash
  · exact fun _ _ hc => absurd hc hslash

theorem readPieces_short {e c : Char} (h : shortEscape? e = some c) (hu : e ≠ 'u') (cs : List Char) :
    readPieces ('\\' :: e :: cs) = (readPieces cs).map fun p => (.char c :: p.1, p.2) := by
  rw [readPieces, h, Option.map_eq_bind]
  · rfl
  · intro a b c d ds he
    exact absurd he hu

theorem readPieces_escape (c : Char) (cs : List Char) :
    readPieces (escape c ++ cs) = (readPieces cs).map fun p => (piece c :: p.1, p.2) := by
  unfold escape
  split
  iterate 7 exact readPieces_short rfl (by decide) cs
  · rename_i hquote hslash hb hf hn hr ht
    split
    · rename_i hcontrol
      have hpiece : piece c = .unit c.toNat := by simp_all [piece]
      simp only [List.cons_append, List.nil_append, readPieces]
      rw [codeUnit?_hexDigit (by omega), hpiece, Option.map_eq_bind]
      rfl
    · rename_i hplain
      have hpiece : piece c = .char c := by simp [piece, hplain]
      rw [hpiece]
      exact readPieces_plain (Nat.le_of_not_lt hplain) hquote hslash cs

theorem readPieces_flatMap_escape (cs rest : List Char) :
    readPieces (cs.flatMap escape ++ '"' :: rest) = some (cs.map piece, rest) := by
  induction cs with
  | nil => simp [readPieces]
  | cons c cs ih =>
    rw [List.flatMap_cons, List.append_assoc, readPieces_escape, ih]
    rfl

/-- A code unit for a control character is no half of a surrogate pair. -/
theorem join_unit {n : Nat} (h : n < 32) (pieces : List Piece) :
    join (.unit n :: pieces) = (join pieces).map (Char.ofNat n :: ·) := by
  have hhigh : isHighSurrogate n = false := by simp [isHighSurrogate]; omega
  have hlow : isLowSurrogate n = false := by simp [isLowSurrogate]; omega
  rcases pieces with _ | ⟨c | m, pieces⟩ <;> simp [join, hhigh, hlow]

theorem join_map_piece (cs : List Char) : join (cs.map piece) = some cs := by
  induction cs with
  | nil => rfl
  | cons c cs ih =>
    rw [List.map_cons]
    by_cases h : c.toNat < 32 ∧ c ∉ ['\x08', '\x0c', '\n', '\r', '\t']
    · rw [piece, if_pos h, join_unit h.1, ih, Char.ofNat_toNat]
      rfl
    · rw [piece, if_neg h, join, ih]
      rfl

theorem readString_escape (s : String) (rest : List Char) :
    readString (s.toList.flatMap escape ++ '"' :: rest) = some (some s, rest) := by
  unfold readString
  rw [readPieces_flatMap_escape, Option.map_some]
  dsimp only
  rw [join_map_piece, Option.map_some, String.ofList_toList]

theorem toList_quote (s : String) (rest : List Char) :
    (quote s).toList ++ rest = '"' :: (s.toList.flatMap escape ++ '"' :: rest) := by
  simp [quote]

/-! ## Blanks -/

def AllBlank (cs : List Char) : Prop := ∀ c ∈ cs, isBlank c = true

theorem allBlank_lineBreak (level : Nat) : AllBlank (lineBreak level).toList := by
  intro c hc
  simp only [lineBreak, String.toList_append, String.toList_ofList, List.mem_append,
    List.mem_replicate] at hc
  rcases hc with hc | ⟨-, rfl⟩
  · simp at hc
    subst hc
    decide
  · decide

theorem skipBlanks_append {ws : List Char} (h : AllBlank ws) (cs : List Char) :
    skipBlanks (ws ++ cs) = skipBlanks cs :=
  List.dropWhile_append_of_pos h

theorem skipBlanks_cons {c : Char} (h : isBlank c = false) (cs : List Char) :
    skipBlanks (c :: cs) = c :: cs :=
  List.dropWhile_cons_of_neg (by simp [h])

theorem readValue_blanks {ws : List Char} (h : AllBlank ws) (n : Nat) (cs : List Char) :
    readValue n (ws ++ cs) = readValue n cs := by
  cases n with
  | zero => rw [readValue, readValue]
  | succ n => rw [readValue, readValue, skipBlanks_append h]

theorem readValue_quote (n : Nat) (cs : List Char) :
    readValue (n + 1) ('"' :: cs) = (readString cs).map fun (s, rest) => (.string s, rest) := by
  rw [readValue, skipBlanks_cons (by decide)]
  rfl

/-! ## Values -/

/-- Values made of strings, arrays and objects, with no string or name broken. -/
inductive Textual : Json → Prop
  | string (s : String) : Textual (.ofString s)
  | array {items : List Json} (h : ∀ j ∈ items, Textual j) : Textual (.array items)
  | object {fields : List (String × Json)} (h : ∀ f ∈ fields, Textual f.2) :
    Textual (.ofFields fields)

theorem renderIndentedItems_eq (level : Nat) (items : List Json) :
    renderIndentedItems level items = items.map (renderIndented level) := by
  induction items with
  | nil => rfl
  | cons item items ih => rw [renderIndentedItems, ih, List.map_cons]

/-- A field on a line of its own. -/
def fieldText (level : Nat) (f : String × Json) : String :=
  quote f.1 ++ ": " ++ f.2.renderIndented level

theorem renderIndentedFields_eq (level : Nat) (fields : List (String × Json)) :
    renderIndentedFields level (fields.map fun f => (some f.1, f.2)) =
      fields.map (fieldText level) := by
  induction fields with
  | nil => rfl
  | cons f fields ih =>
    rw [List.map_cons, renderIndentedFields, ih, List.map_cons]
    rfl

/-- The text starts with a quote or with an opening bracket. -/
def Opens (cs : List Char) : Prop := ∃ c ds, cs = c :: ds ∧ c ∈ ['"', '[', '\x7b']

theorem Opens.append {cs : List Char} (h : Opens cs) (ds : List Char) : Opens (cs ++ ds) := by
  obtain ⟨c, es, rfl, hc⟩ := h
  exact ⟨c, es ++ ds, rfl, hc⟩

theorem Opens.skipBlanks_eq {cs : List Char} (h : Opens cs) : skipBlanks cs = cs := by
  obtain ⟨c, ds, rfl, hc⟩ := h
  refine skipBlanks_cons ?_ ds
  simp only [List.mem_cons, List.not_mem_nil, or_false] at hc
  rcases hc with rfl | rfl | rfl <;> rfl

theorem opens_quote (s : String) : Opens (quote s).toList :=
  ⟨'"', _, List.append_nil _ ▸ toList_quote s [], by decide⟩

theorem opens_enclose (opening : Char) (h : opening ∈ ['"', '[', '\x7b']) (closing : String)
    (level : Nat) (items : List String) :
    Opens (enclose opening.toString closing level items).toList := by
  unfold enclose
  split <;> simp only [String.toList_append, Char.toString, String.toList_singleton,
    List.append_assoc] <;> exact ⟨opening, _, rfl, h⟩

theorem opens_fieldText (level : Nat) (f : String × Json) : Opens (fieldText level f).toList := by
  rw [fieldText, String.append_assoc, String.toList_append]
  exact (opens_quote f.1).append _

theorem Textual.opens {j : Json} (h : j.Textual) (level : Nat) :
    Opens (j.renderIndented level).toList := by
  cases h with
  | string s => exact opens_quote s
  | array _ => exact opens_enclose '[' (by decide) _ _ _
  | object _ => exact opens_enclose '\x7b' (by decide) _ _ _

/-! ## Lists of items and of fields -/

theorem readItems_blanks {ws : List Char} (h : AllBlank ws) (n : Nat) (cs : List Char) :
    readItems n (ws ++ cs) = readItems n cs := by
  cases n with
  | zero => rw [readItems, readItems]
  | succ n => rw [readItems, readItems, readValue_blanks h]

theorem readFields_blanks {ws : List Char} (h : AllBlank ws) (n : Nat) (cs : List Char) :
    readFields n (ws ++ cs) = readFields n cs := by
  cases n with
  | zero => rw [readFields, readFields]
  | succ n => rw [readFields, readFields, skipBlanks_append h]

/-- With two steps for each character of the text, it is read as the value. -/
def ReadAs (text : String) (j : Json) : Prop :=
  ∀ (n : Nat) (rest : List Char), 2 * text.length ≤ n →
    readValue n (text.toList ++ rest) = some (j, rest)

/-- How a reader of a list goes past one of its members: either a comma and the rest
of the list follow, or blanks and the closing bracket. -/
structure Passes {α : Type} (read : Nat → List Char → Option (List α × List Char)) (closing : Char)
    (text : String) (a : α) : Prop where
  next : ∀ (n : Nat) (cs : List Char), 2 * text.length ≤ n →
    read (n + 1) (text.toList ++ ',' :: cs) = (read n cs).map fun p => (a :: p.1, p.2)
  last : ∀ (n : Nat) (ws rest : List Char), 2 * text.length ≤ n → AllBlank ws →
    read (n + 1) (text.toList ++ (ws ++ closing :: rest)) = some ([a], rest)

theorem passes_item {text : String} {j : Json} (h : ReadAs text j) :
    Passes readItems ']' text j where
  next n cs hn := by
    rw [readItems, h n _ hn]
    simp only [Option.bind_eq_bind, Option.bind_some,
      skipBlanks_cons (show isBlank ',' = false by decide)]
    rw [Option.map_eq_bind]
    rfl
  last n ws rest hn hws := by
    rw [readItems, h n _ hn]
    simp only [Option.bind_eq_bind, Option.bind_some, skipBlanks_append hws,
      skipBlanks_cons (show isBlank ']' = false by decide)]
    rfl

theorem passes_field {level : Nat} {f : String × Json} (h : ReadAs (f.2.renderIndented level) f.2) :
    Passes readFields '\x7d' (fieldText level f) (some f.1, f.2) := by
  have hbound {n : Nat} (hn : 2 * (fieldText level f).length ≤ n) :
      2 * (f.2.renderIndented level).length ≤ n := by
    simp only [fieldText, String.length_append] at hn
    omega
  have htext (cs : List Char) : (fieldText level f).toList ++ cs =
      '"' :: (f.1.toList.flatMap escape ++
        '"' :: ':' :: ([' '] ++ ((f.2.renderIndented level).toList ++ cs))) := by
    rw [fieldText, String.toList_append, String.toList_append, List.append_assoc, List.append_assoc,
      toList_quote]
    rfl
  have hblank : AllBlank [' '] := fun c hc => List.mem_singleton.mp hc ▸ rfl
  constructor
  · intro n cs hn
    rw [htext, readFields, skipBlanks_cons (by decide)]
    simp only [readString_escape, Option.bind_eq_bind, Option.bind_some,
      skipBlanks_cons (show isBlank ':' = false by decide), readValue_blanks hblank,
      h n _ (hbound hn), skipBlanks_cons (show isBlank ',' = false by decide)]
    rw [Option.map_eq_bind]
    rfl
  · intro n ws rest hn hws
    rw [htext, readFields, skipBlanks_cons (by decide)]
    simp only [readString_escape, Option.bind_eq_bind, Option.bind_some,
      skipBlanks_cons (show isBlank ':' = false by decide), readValue_blanks hblank,
      h n _ (hbound hn), skipBlanks_append hws,
      skipBlanks_cons (show isBlank '\x7d' = false by decide)]
    rfl

/-- A list of members, each on a line of its own, and the closing bracket. -/
theorem read_intercalate {α β : Type} {read : Nat → List Char → Option (List α × List Char)}
    {closing : Char} {level : Nat} {ws : List Char} (hws : AllBlank ws)
    (hblanks : ∀ (n : Nat) (cs : List Char), read n ((lineBreak level).toList ++ cs) = read n cs)
    {text : β → String} {member : β → α} (rest : List Char) {b : β} {bs : List β}
    (h : ∀ x ∈ b :: bs, Passes read closing (text x) (member x)) {n : Nat}
    (hn : 2 * (("," ++ lineBreak level).intercalate ((b :: bs).map text)).length < n) :
    read n ((("," ++ lineBreak level).intercalate ((b :: bs).map text)).toList ++
      (ws ++ closing :: rest)) = some ((b :: bs).map member, rest) := by
  obtain ⟨n, rfl⟩ : ∃ k, n = k + 1 := ⟨n - 1, by omega⟩
  rw [List.forall_mem_cons] at h
  induction bs generalizing b n with
  | nil =>
    rw [List.map_singleton, String.intercalate_singleton] at hn ⊢
    exact h.1.last n ws rest (by omega) hws
  | cons b' bs ih =>
    rw [List.map_cons, List.map_cons, String.intercalate_cons_cons, ← List.map_cons] at hn ⊢
    have hcomma : ",".length = 1 := rfl
    simp only [String.length_append, hcomma] at hn
    obtain ⟨n, rfl⟩ : ∃ k, n = k + 1 := ⟨n - 1, by omega⟩
    have hrest := ih (List.forall_mem_cons.mp h.2) n (by omega)
    simp only [String.toList_append, List.append_assoc]
    rw [show ",".toList = [','] from rfl, List.singleton_append, h.1.next _ _ (by omega), hblanks,
      hrest]
    rfl

theorem Opens.ne_nil {cs : List Char} (h : Opens cs) : cs ≠ [] := by
  obtain ⟨c, ds, rfl, -⟩ := h
  exact List.cons_ne_nil c ds

theorem opens_intercalate {β : Type} {text : β → String} {b : β} (h : Opens (text b).toList)
    (separator : String) (bs : List β) :
    Opens (separator.intercalate ((b :: bs).map text)).toList := by
  cases bs with
  | nil => rwa [List.map_singleton, String.intercalate_singleton]
  | cons b' bs =>
    rw [List.map_cons, List.map_cons, String.intercalate_cons_cons, String.append_assoc,
      String.toList_append]
    exact h.append _

theorem toList_enclose {β : Type} (opening closing : Char) (level : Nat) (text : β → String) (b : β)
    (bs : List β) (rest : List Char) :
    (enclose opening.toString closing.toString level ((b :: bs).map text)).toList ++ rest =
      opening :: ((lineBreak (level + 1)).toList ++
        ((("," ++ lineBreak (level + 1)).intercalate ((b :: bs).map text)).toList ++
          ((lineBreak level).toList ++ closing :: rest))) := by
  simp only [enclose, List.map_cons, List.isEmpty_cons, Bool.false_eq_true, if_false,
    String.toList_append, Char.toString, String.toList_singleton, List.append_assoc,
    List.cons_append, List.nil_append]

theorem length_enclose {β : Type} (opening closing : Char) (level : Nat) (text : β → String) (b : β)
    (bs : List β) :
    (("," ++ lineBreak (level + 1)).intercalate ((b :: bs).map text)).length + 2 ≤
      (enclose opening.toString closing.toString level ((b :: bs).map text)).length := by
  have htext := congrArg List.length (toList_enclose opening closing level text b bs [])
  simp only [List.append_nil, List.length_cons, List.length_append, String.length_toList,
    List.length_nil] at htext
  omega

/-- How a value in brackets is read: it is empty, or a list of members follows. -/
structure Brackets {α : Type} (opening closing : Char)
    (read : Nat → List Char → Option (List α × List Char)) (wrap : List α → Json) : Prop where
  opens : opening ∈ ['"', '[', '\x7b']
  empty : ∀ (n : Nat) (rest : List Char),
    readValue (n + 1) (opening :: closing :: rest) = some (wrap [], rest)
  members : ∀ (n : Nat) (ws cs : List Char), AllBlank ws → Opens cs →
    readValue (n + 1) (opening :: (ws ++ cs)) = (read n cs).map fun p => (wrap p.1, p.2)
  blanks : ∀ (n : Nat) (ws cs : List Char), AllBlank ws → read n (ws ++ cs) = read n cs

theorem brackets_array : Brackets '[' ']' readItems .array where
  opens := by decide
  empty n rest := by
    rw [readValue, skipBlanks_cons (by decide)]
    simp only [skipBlanks_cons (show isBlank ']' = false by decide)]
  members n ws cs hws hcs := by
    rw [readValue, skipBlanks_cons (by decide)]
    simp only [skipBlanks_append hws, hcs.skipBlanks_eq]
    obtain ⟨c, ds, rfl, hc⟩ := hcs
    simp only [List.mem_cons, List.not_mem_nil, or_false] at hc
    rcases hc with rfl | rfl | rfl <;> rfl
  blanks n _ cs hws := readItems_blanks hws n cs

theorem brackets_object : Brackets '\x7b' '\x7d' readFields .object where
  opens := by decide
  empty n rest := by
    rw [readValue, skipBlanks_cons (by decide)]
    simp only [skipBlanks_cons (show isBlank '\x7d' = false by decide)]
  members n ws cs hws hcs := by
    rw [readValue, skipBlanks_cons (by decide)]
    simp only [skipBlanks_append hws, hcs.skipBlanks_eq]
    obtain ⟨c, ds, rfl, hc⟩ := hcs
    simp only [List.mem_cons, List.not_mem_nil, or_false] at hc
    rcases hc with rfl | rfl | rfl <;> rfl
  blanks n _ cs hws := readFields_blanks hws n cs

theorem readAs_enclose {α β : Type} {opening closing : Char}
    {read : Nat → List Char → Option (List α × List Char)} {wrap : List α → Json}
    (hbrackets : Brackets opening closing read wrap) {text : β → String} {member : β → α}
    {bs : List β} (h : ∀ x ∈ bs, Passes read closing (text x) (member x))
    (hopens : ∀ x ∈ bs, Opens (text x).toList) (level : Nat) :
    ReadAs (enclose opening.toString closing.toString level (bs.map text))
      (wrap (bs.map member)) := by
  intro n rest hn
  have hinner := allBlank_lineBreak (level + 1)
  cases bs with
  | nil =>
    have htext : enclose opening.toString closing.toString level ([].map text) =
        opening.toString ++ closing.toString := rfl
    rw [htext] at hn ⊢
    simp only [String.length_append, Char.toString, String.length_singleton] at hn
    obtain ⟨n, rfl⟩ : ∃ k, n = k + 1 := ⟨n - 1, by omega⟩
    simpa [Char.toString] using hbrackets.empty n rest
  | cons b bs =>
    have hlength := length_enclose opening closing level text b bs
    obtain ⟨n, rfl⟩ : ∃ k, n = k + 1 := ⟨n - 1, by omega⟩
    have hread := read_intercalate (allBlank_lineBreak level)
      (fun n cs => hbrackets.blanks n _ cs hinner) rest h (n := n) (by omega)
    have hfirst := (opens_intercalate (hopens b List.mem_cons_self)
      ("," ++ lineBreak (level + 1)) bs).append ((lineBreak level).toList ++ closing :: rest)
    rw [toList_enclose, hbrackets.members n _ _ hinner hfirst, hread]
    rfl

/-- What is written for a value is read as that value. -/
theorem Textual.readAs {j : Json} (h : j.Textual) (level : Nat) :
    ReadAs (j.renderIndented level) j := by
  induction h generalizing level with
  | string s =>
    intro n rest hn
    have htext : renderIndented level (.ofString s) = quote s := rfl
    have hpos : 0 < (quote s).length :=
      String.length_toList ▸ List.length_pos_iff.mpr (opens_quote s).ne_nil
    rw [htext] at hn ⊢
    obtain ⟨n, rfl⟩ : ∃ k, n = k + 1 := ⟨n - 1, by omega⟩
    rw [toList_quote, readValue_quote, readString_escape]
    rfl
  | @array items hitems ih =>
    rw [renderIndented, renderIndentedItems_eq]
    have hpasses (x : Json) (hx : x ∈ items) :
        Passes readItems ']' (x.renderIndented (level + 1)) (id x) :=
      passes_item (ih x hx (level + 1))
    have hread := readAs_enclose brackets_array hpasses
      (fun x hx => (hitems x hx).opens (level + 1)) level
    rwa [List.map_id] at hread
  | @object fields hfields ih =>
    rw [ofFields, renderIndented, renderIndentedFields_eq]
    exact readAs_enclose brackets_object (fun x hx => passes_field (ih x hx (level + 1)))
      (fun x _ => opens_fieldText (level + 1) x) level

theorem parse_renderIndented {j : Json} (h : j.Textual) : parse (j.renderIndented 0) = some j := by
  have hread := h.readAs 0 (2 * (j.renderIndented 0).length + 1) [] (Nat.le_succ _)
  rw [List.append_nil] at hread
  unfold parse
  rw [hread]
  rfl

end Entailment.Json
