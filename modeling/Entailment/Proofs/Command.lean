import Entailment.Console
import Mathlib.Data.List.Forall2
import Mathlib.Data.List.TakeWhile

/-! Which command a line holds. A line is made up of a verb and an argument, with blanks
around and between them, and of a comment from the first number sign on. -/
namespace Entailment

namespace Text

/-- Nothing but blanks. -/
def Blanks (cs : List Char) : Prop := ∀ c ∈ cs, isBlank c = true

/-- No blank at either end. -/
def Trimmed (cs : List Char) : Prop :=
  (∀ c ∈ cs.head?, isBlank c = false) ∧ ∀ c ∈ cs.getLast?, isBlank c = false

variable {p : Char → Bool} {cs ws ws' : List Char}

theorem splitFirst_append (h : ∀ c ∈ cs, p c = false) (rest : List Char) :
    splitFirst p (cs ++ rest) = (splitFirst p rest).map (Prod.map (cs ++ ·) id) := by
  induction cs with
  | nil => exact Option.map_id'.symm
  | cons c cs ih =>
    obtain ⟨hc, hcs⟩ := List.forall_mem_cons.mp h
    rw [List.cons_append, splitFirst, if_neg (by simp [hc]), ih hcs, Option.map_map]
    rfl

theorem splitFirst_eq_none (h : ∀ c ∈ cs, p c = false) : splitFirst p cs = none := by
  have hsplit := splitFirst_append h []
  rwa [List.append_nil] at hsplit

theorem splitFirst_append_cons (h : ∀ c ∈ cs, p c = false) {c : Char} (hc : p c = true)
    (rest : List Char) : splitFirst p (cs ++ c :: rest) = some (cs, rest) := by
  rw [splitFirst_append h, splitFirst, if_pos hc]
  simp [Prod.map]

theorem trimLeft_of_head (h : ∀ c ∈ cs.head?, isBlank c = false) : trimLeft cs = cs := by
  cases cs with
  | nil => rfl
  | cons c cs => rw [trimLeft, List.dropWhile_cons_of_neg (by simp [h c rfl])]

theorem trim_append (hws : Blanks ws) (hcs : Trimmed cs) (hws' : Blanks ws') :
    trim (ws ++ cs ++ ws') = cs := by
  have hleft (rest : List Char) : trimLeft (ws ++ rest) = trimLeft rest :=
    List.dropWhile_append_of_pos hws
  have hright (rest : List Char) : trimLeft (ws'.reverse ++ rest) = trimLeft rest :=
    List.dropWhile_append_of_pos fun c hc => hws' c (List.mem_reverse.mp hc)
  rcases cs with _ | ⟨c, cs⟩
  · have hnil : trimLeft ws' = [] := List.dropWhile_eq_nil_iff.mpr hws'
    rw [trim, List.append_nil, hleft, hnil]
    rfl
  · have hfirst : trimLeft (c :: cs ++ ws') = c :: cs ++ ws' := trimLeft_of_head hcs.1
    have hlast : trimLeft (c :: cs).reverse = (c :: cs).reverse :=
      trimLeft_of_head (by rw [List.head?_reverse]; exact hcs.2)
    rw [trim, List.append_assoc, hleft, hfirst, List.reverse_append, hright, hlast,
      List.reverse_reverse]

theorem exists_span (p : Char → Bool) (cs : List Char) :
    ∃ front rest, cs = front ++ rest ∧ (∀ c ∈ front, p c = true) ∧
      ∀ c ∈ rest.head?, p c = false := by
  refine ⟨cs.takeWhile p, cs.dropWhile p, List.takeWhile_append_dropWhile.symm, ?_, ?_⟩
  · exact fun c hc => List.mem_takeWhile_imp hc
  · intro c hc
    have hhead := List.head?_dropWhile_not p cs
    rw [Option.mem_def.mp hc] at hhead
    simpa using hhead

theorem exists_trimmed (cs : List Char) :
    ∃ ws core ws', cs = ws ++ core ++ ws' ∧ Blanks ws ∧ Trimmed core ∧ Blanks ws' := by
  obtain ⟨ws, rest, rfl, hws, hhead⟩ := exists_span isBlank cs
  obtain ⟨back, front, hrest, hback, hlast⟩ := exists_span isBlank rest.reverse
  obtain rfl : rest = front.reverse ++ back.reverse := by
    rw [← List.reverse_append, ← hrest, List.reverse_reverse]
  refine ⟨ws, front.reverse, back.reverse, by rw [List.append_assoc], hws, ⟨?_, ?_⟩, ?_⟩
  · intro c hc
    exact hhead c (by rw [List.head?_append, Option.mem_def.mp hc]; rfl)
  · rwa [List.getLast?_reverse]
  · exact fun c hc => hback c (List.mem_reverse.mp hc)

end Text

namespace Console

open Text

/-- The text before a comment is a verb and an argument that stands apart from it. Either
may be missing, the verb only together with the argument. -/
inductive Parts : (code verb argument : List Char) → Prop
  | blank {ws} (hws : Blanks ws) : Parts ws [] []
  | verb {ws verb ws'} (hws : Blanks ws) (hne : verb ≠ [])
      (hverb : ∀ c ∈ verb, isBlank c = false) (hws' : Blanks ws') :
    Parts (ws ++ verb ++ ws') verb []
  | call {ws verb gap argument ws'} (hws : Blanks ws) (hne : verb ≠ [])
      (hverb : ∀ c ∈ verb, isBlank c = false) (hapart : gap ≠ []) (hgap : Blanks gap)
      (hsome : argument ≠ []) (hargument : Trimmed argument) (hws' : Blanks ws') :
    Parts (ws ++ (verb ++ gap ++ argument) ++ ws') verb argument

/-- The line has this verb and this argument. A comment starts at the first number sign. -/
def Written (line : String) (verb argument : List Char) : Prop :=
  ∃ code comment, line.toList = code ++ comment ∧ '#' ∉ code ∧ (∀ c ∈ comment.head?, c = '#') ∧
    Parts code verb argument

/-- The keyword, with any of its letters large. -/
def Spells (keyword : String) (verb : List Char) : Prop :=
  List.Forall₂ (fun c letter => c = letter ∨ c = letter.toUpper) verb keyword.toList

/-- The line has this keyword for its verb, and this argument. -/
def Asks (keyword argument line : String) : Prop :=
  ∃ verb, Spells keyword verb ∧ Written line verb argument.toList

def keywords : List String := ["help", "list", "axiom", "lemma", "prove", "query"]

/-- What a line asks for. -/
inductive Means (line : String) : Command → Prop
  | empty (h : Written line [] []) : Means line .empty
  | help {argument} (h : Asks "help" argument line) : Means line .help
  | list {argument} (h : Asks "list" argument line) : Means line .list
  | assert {text} (h : Asks "axiom" text line) : Means line (.assert text)
  | proveAndAdd {text} (h : Asks "lemma" text line) : Means line (.proveAndAdd text)
  | prove {text} (h : Asks "prove" text line) : Means line (.prove text)
  | query {text} (h : Asks "query" text line) : Means line (.query text)
  | unknown {verb argument} (h : Written line verb argument) (hne : verb ≠ [])
      (hverb : ∀ keyword ∈ keywords, ¬ Spells keyword verb) :
    Means line (.unknown (String.ofList verb))

variable {line keyword text : String} {code verb argument : List Char} {command : Command}

theorem exists_parts (code : List Char) : ∃ verb argument, Parts code verb argument := by
  obtain ⟨ws, core, ws', rfl, hws, hcore, hws'⟩ := exists_trimmed code
  obtain ⟨verb, tail, rfl, hverb, htail⟩ := exists_span (fun c => !isBlank c) core
  obtain ⟨gap, argument, rfl, hgap, hhead⟩ := exists_span isBlank tail
  have hverb : ∀ c ∈ verb, isBlank c = false := fun c hc => by simpa using hverb c hc
  have htail : ∀ c ∈ (gap ++ argument).head?, isBlank c = true :=
    fun c hc => by simpa using htail c hc
  have hblank {us vs : List Char} (hus : Blanks us) (hvs : Blanks vs) : Blanks (us ++ vs) :=
    List.forall_mem_append.mpr ⟨hus, hvs⟩
  rcases eq_or_ne argument [] with rfl | hsome
  · rw [List.append_nil] at htail hcore ⊢
    rcases eq_or_ne verb [] with rfl | hne
    · exact ⟨[], [], .blank (hblank (hblank hws hgap) hws')⟩
    · rw [← List.append_assoc, List.append_assoc]
      exact ⟨verb, [], .verb hws hne hverb (hblank hgap hws')⟩
  · -- The verb ends at a blank and the argument starts with none, so there is a gap.
    have hapart : gap ≠ [] := by
      rintro rfl
      obtain ⟨c, rest, rfl⟩ := List.exists_cons_of_ne_nil hsome
      exact Bool.false_ne_true ((hhead c rfl).symm.trans (htail c rfl))
    have hne : verb ≠ [] := by
      rintro rfl
      obtain ⟨c, rest, rfl⟩ := List.exists_cons_of_ne_nil hapart
      exact Bool.false_ne_true ((hcore.1 c rfl).symm.trans (htail c rfl))
    have hlast := hcore.2
    rw [← List.append_assoc, List.getLast?_append_of_ne_nil _ hsome] at hlast
    rw [← List.append_assoc verb]
    exact ⟨verb, argument, .call hws hne hverb hapart hgap hsome ⟨hhead, hlast⟩ hws'⟩

theorem Parts.split (h : Parts code verb argument) :
    ∃ rest, (splitFirst isBlank (trim code)).getD (trim code, []) = (verb, rest) ∧
      trim rest = argument := by
  cases h with
  | blank hws =>
    have htrim : trim (code ++ [] ++ []) = [] :=
      trim_append hws (by simp [Trimmed]) (by simp [Blanks])
    rw [List.append_nil, List.append_nil] at htrim
    rw [htrim]
    exact ⟨[], rfl, rfl⟩
  | verb hws hne hverb hws' =>
    have htrimmed : Trimmed verb :=
      ⟨fun c hc => hverb c (List.mem_of_mem_head? hc),
        fun c hc => hverb c (List.mem_of_getLast? hc)⟩
    rw [trim_append hws htrimmed hws', splitFirst_eq_none hverb]
    exact ⟨[], rfl, rfl⟩
  | @call ws _ gap _ ws' hws hne hverb hapart hgap hsome hargument hws' =>
    have htrimmed : Trimmed (verb ++ gap ++ argument) := by
      refine ⟨fun c hc => hverb c ?_, fun c hc => hargument.2 c ?_⟩
      · rw [List.append_assoc, List.head?_append_of_ne_nil _ hne] at hc
        exact List.mem_of_mem_head? hc
      · rwa [List.getLast?_append_of_ne_nil _ hsome] at hc
    obtain ⟨w, gap, rfl⟩ := List.exists_cons_of_ne_nil hapart
    obtain ⟨hw, hgap⟩ := List.forall_mem_cons.mp hgap
    rw [trim_append hws htrimmed hws', List.append_assoc, List.cons_append,
      splitFirst_append_cons hverb hw]
    refine ⟨gap ++ argument, rfl, ?_⟩
    have htrim : trim (gap ++ argument ++ []) = argument :=
      trim_append hgap hargument (by simp [Blanks])
    rwa [List.append_nil] at htrim

theorem exists_written (line : String) : ∃ verb argument, Written line verb argument := by
  obtain ⟨code, comment, hline, hcode, hcomment⟩ := exists_span (· != '#') line.toList
  obtain ⟨verb, argument, hparts⟩ := exists_parts code
  refine ⟨verb, argument, code, comment, hline, fun hmem => ?_, fun c hc => ?_, hparts⟩
  · simpa using hcode _ hmem
  · simpa using hcomment c hc

theorem parseCommand_of_written (h : Written line verb argument) :
    parseCommand line = .ofVerb verb (String.ofList argument) := by
  obtain ⟨code, comment, hline, hcode, hcomment, hparts⟩ := h
  obtain ⟨rest, hsplit, hargument⟩ := hparts.split
  have hplain : ∀ c ∈ code, (c == '#') = false :=
    fun c hc => beq_false_of_ne fun heq => hcode (heq ▸ hc)
  unfold parseCommand
  cases comment with
  | nil =>
    rw [hline, List.append_nil, splitFirst_eq_none hplain]
    dsimp only
    rw [hsplit, ← hargument]
  | cons c comment =>
    rw [hline, splitFirst_append_cons hplain (by rw [hcomment c rfl]; rfl)]
    dsimp only
    rw [hsplit, ← hargument]

theorem toLower_eq_iff {c letter : Char} (h : 'a' ≤ letter ∧ letter ≤ 'z') :
    c.toLower = letter ↔ c = letter ∨ c = letter.toUpper := by
  rw [Char.le_def, Char.le_def] at h
  have hupper : letter.toUpper.val.toNat + 32 = letter.val.toNat := by
    unfold Char.toUpper
    rw [dif_pos h]
    simp only [UInt32.le_iff_toNat_le, UInt32.toNat_add, UInt32.reduceToNat, Char.reduceVal,
      UInt32.reduceSub] at h ⊢
    omega
  simp only [Char.ext_iff, ← UInt32.toNat_inj]
  unfold Char.toLower
  split
  · rename_i hc
    simp only [UInt32.le_iff_toNat_le, UInt32.toNat_add, UInt32.reduceToNat, Char.reduceVal,
      UInt32.reduceSub, ge_iff_le] at h hc ⊢
    omega
  · rename_i hc
    simp only [UInt32.le_iff_toNat_le, UInt32.reduceToNat, Char.reduceVal, ge_iff_le] at h hc ⊢
    omega

theorem forall₂_iff_map_toLower {letters : List Char}
    (h : ∀ letter ∈ letters, 'a' ≤ letter ∧ letter ≤ 'z') :
    List.Forall₂ (fun c letter => c = letter ∨ c = letter.toUpper) verb letters ↔
      verb.map Char.toLower = letters := by
  induction verb generalizing letters with
  | nil => simp [eq_comm]
  | cons c verb ih =>
    cases letters with
    | nil => simp
    | cons letter letters =>
      obtain ⟨hletter, hletters⟩ := List.forall_mem_cons.mp h
      rw [List.forall₂_cons, List.map_cons, List.cons.injEq, ih hletters, toLower_eq_iff hletter]

theorem spells_iff (h : keyword ∈ keywords) :
    Spells keyword verb ↔ String.ofList (verb.map Char.toLower) = keyword := by
  have hlower : ∀ keyword ∈ keywords, ∀ letter ∈ keyword.toList, 'a' ≤ letter ∧ letter ≤ 'z' := by
    simp [keywords]
  rw [← String.toList_inj, String.toList_ofList]
  exact forall₂_iff_map_toLower (hlower keyword h)

theorem Written.asks (h : Written line verb argument) (hkeyword : keyword ∈ keywords)
    (hverb : String.ofList (verb.map Char.toLower) = keyword) :
    Asks keyword (String.ofList argument) line := by
  refine ⟨verb, (spells_iff hkeyword).mpr hverb, ?_⟩
  rwa [String.toList_ofList]

theorem Asks.exists_eq_ofVerb (h : Asks keyword text line) (hkeyword : keyword ∈ keywords) :
    ∃ verb, String.ofList (verb.map Char.toLower) = keyword ∧
      parseCommand line = .ofVerb verb text := by
  obtain ⟨verb, hverb, hwritten⟩ := h
  refine ⟨verb, (spells_iff hkeyword).mp hverb, ?_⟩
  rw [parseCommand_of_written hwritten, String.ofList_toList]

theorem map_toLower_eq_nil (h : String.ofList (verb.map Char.toLower) = "") : verb = [] := by
  rwa [← String.toList_inj, String.toList_ofList, String.toList_empty, List.map_eq_nil_iff] at h

theorem means_ofVerb (h : Written line verb argument) :
    Means line (.ofVerb verb (String.ofList argument)) := by
  unfold Command.ofVerb
  split
  case h_1 hverb =>
    obtain rfl := map_toLower_eq_nil hverb
    obtain ⟨code, comment, hline, hcode, hcomment, hparts⟩ := h
    have hargument : argument = [] := by
      cases hparts with
      | blank => rfl
      | verb _ hne => exact absurd rfl hne
      | call _ hne => exact absurd rfl hne
    subst hargument
    exact .empty ⟨code, comment, hline, hcode, hcomment, hparts⟩
  case h_2 hverb => exact .help (h.asks (by decide) hverb)
  case h_3 hverb => exact .list (h.asks (by decide) hverb)
  case h_4 hverb => exact .assert (h.asks (by decide) hverb)
  case h_5 hverb => exact .proveAndAdd (h.asks (by decide) hverb)
  case h_6 hverb => exact .prove (h.asks (by decide) hverb)
  case h_7 hverb => exact .query (h.asks (by decide) hverb)
  case h_8 hempty hhelp hlist hassert hlemma hprove hquery =>
    refine .unknown h (fun hnil => hempty (by rw [hnil]; rfl)) fun keyword hkeyword hspells => ?_
    have hverb := (spells_iff hkeyword).mp hspells
    simp only [keywords, List.mem_cons, List.not_mem_nil, or_false] at hkeyword
    rcases hkeyword with rfl | rfl | rfl | rfl | rfl | rfl <;> contradiction

/-- A line is read as the command that it means. -/
theorem parseCommand_eq_iff : parseCommand line = command ↔ Means line command := by
  constructor
  · rintro rfl
    obtain ⟨verb, argument, h⟩ := exists_written line
    rw [parseCommand_of_written h]
    exact means_ofVerb h
  · intro h
    cases h with
    | empty h =>
      rw [parseCommand_of_written h]
      rfl
    | help h | list h | assert h | proveAndAdd h | prove h | query h =>
      obtain ⟨verb, hverb, hparse⟩ := h.exists_eq_ofVerb (by decide)
      rw [hparse, Command.ofVerb, hverb]
      rfl
    | @unknown verb argument h hne hverb =>
      have hother {keyword : String} (hkeyword : keyword ∈ keywords) :
          String.ofList (verb.map Char.toLower) ≠ keyword := fun heq =>
        hverb keyword hkeyword ((spells_iff hkeyword).mpr heq)
      rw [parseCommand_of_written h, Command.ofVerb]
      split
      case h_1 hempty => exact absurd (map_toLower_eq_nil hempty) hne
      case h_8 => rfl
      all_goals
        rename_i heq
        exact absurd heq (hother (by decide))

theorem asks_axiom_iff : Asks "axiom" text line ↔ parseCommand line = .assert text := by
  rw [parseCommand_eq_iff]
  constructor
  · exact .assert
  · rintro ⟨⟩
    assumption

theorem asks_lemma_iff : Asks "lemma" text line ↔ parseCommand line = .proveAndAdd text := by
  rw [parseCommand_eq_iff]
  constructor
  · exact .proveAndAdd
  · rintro ⟨⟩
    assumption

end Console

end Entailment
