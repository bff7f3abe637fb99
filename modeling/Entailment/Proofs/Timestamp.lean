import Entailment.Timestamp
import Mathlib.Algebra.Group.Nat.Defs

/-! A valid point in time is read back from the text that is written for it. -/
namespace Entailment.Timestamp

theorem not_isBlank_of_isDigit {c : Char} (h : c.isDigit = true) : Text.isBlank c = false := by
  simp only [Char.isDigit, Bool.and_eq_true, decide_eq_true_eq, ge_iff_le, UInt32.le_iff_toNat_le]
    at h
  have hlow : 48 ≤ c.toNat := h.1
  have hhigh : c.toNat ≤ 57 := h.2
  simp only [Text.isBlank, Text.blankRanges, List.any_cons, List.any_nil, Bool.or_false,
    Bool.or_eq_false_iff, Bool.and_eq_false_iff, decide_eq_false_iff_not]
  omega

theorem trimLeft_cons {c : Char} (h : Text.isBlank c = false) (cs : List Char) :
    Text.trimLeft (c :: cs) = c :: cs :=
  List.dropWhile_cons_of_neg (by simp [h])

/-- The text does not go on with a digit. -/
def NoDigit (cs : List Char) : Prop := cs.head?.any Char.isDigit = false

theorem takeWhile_digits {ds rest : List Char} (hds : ∀ c ∈ ds, c.isDigit = true)
    (hrest : NoDigit rest) : (ds ++ rest).takeWhile Char.isDigit = ds := by
  rw [List.takeWhile_append_of_pos hds]
  cases rest with
  | nil => simp
  | cons c rest => 
    have hc : c.isDigit = false := hrest
    rw [List.takeWhile_cons_of_neg (by simp [hc]), List.append_nil]

theorem readNumber_append {ds rest : List Char} (hds : ∀ c ∈ ds, c.isDigit = true) (hne : ds ≠ [])
    (hrest : NoDigit rest) {most : Nat} (hmost : ds.length ≤ most) :
    readNumber most (ds ++ rest) = some (digitsValue ds, rest) := by
  have htake : NoDigit (rest.take (most - ds.length)) := by
    unfold NoDigit at hrest ⊢
    rw [List.head?_take]
    split
    · rfl
    · exact hrest
  have hdigits : ((ds ++ rest).take most).takeWhile Char.isDigit = ds := by
    rw [List.take_append, List.take_of_length_le hmost, takeWhile_digits hds htake]
  unfold readNumber
  rw [hdigits]
  simp [hne]

/-! ## Numbers with zeros in front -/

theorem digitsValue_eq (ds : List Char) : digitsValue ds = Nat.ofDigitChars 10 ds 0 := by
  rw [Nat.ofDigitChars_eq_foldl, digitsValue]
  simp only [Nat.mul_comm]
  rfl

theorem toList_padded (width n : Nat) : (padded width n).toList =
    List.replicate (width - (Nat.toDigits 10 n).length) '0' ++ Nat.toDigits 10 n := by
  rw [padded, Nat.toString_eq_ofList_toDigits, String.toList_append, String.toList_ofList,
    String.toList_ofList, String.length_ofList]

theorem isDigit_of_mem_padded {width n : Nat} {c : Char} (h : c ∈ (padded width n).toList) :
    c.isDigit = true := by
  rw [toList_padded, List.mem_append, List.mem_replicate] at h
  rcases h with ⟨-, rfl⟩ | h
  · decide
  · exact Nat.isDigit_of_mem_toDigits (by decide) (by decide) h

theorem padded_ne_nil (width n : Nat) : (padded width n).toList ≠ [] := by
  rw [toList_padded]
  exact List.append_ne_nil_of_right_ne_nil _ Nat.toDigits_ne_nil

theorem digitsValue_padded (width n : Nat) : digitsValue (padded width n).toList = n := by
  rw [digitsValue_eq, toList_padded, Nat.ofDigitChars_append, Nat.ofDigitChars_replicate_zero,
    Nat.mul_zero, Nat.ofDigitChars_ten_toDigits]

theorem length_padded {width n : Nat} (hwidth : 0 < width) (h : n < 10 ^ width) :
    (padded width n).toList.length = width := by
  have hle := (Nat.length_toDigits_le_iff (by decide) hwidth).mpr h
  rw [toList_padded, List.length_append, List.length_replicate]
  omega

theorem readNumber_padded {width n : Nat} {rest : List Char} (hrest : NoDigit rest) {most : Nat}
    (hmost : (padded width n).toList.length ≤ most) :
    readNumber most ((padded width n).toList ++ rest) = some (n, rest) := by
  rw [readNumber_append (fun _ => isDigit_of_mem_padded) (padded_ne_nil width n) hrest hmost,
    digitsValue_padded]

theorem trimLeft_padded (width n : Nat) (rest : List Char) :
    Text.trimLeft ((padded width n).toList ++ rest) = (padded width n).toList ++ rest := by
  obtain ⟨c, cs, hcs⟩ := List.exists_cons_of_ne_nil (padded_ne_nil width n)
  have hc : c.isDigit = true := isDigit_of_mem_padded (hcs ▸ List.mem_cons_self)
  rw [hcs, List.cons_append, trimLeft_cons (not_isBlank_of_isDigit hc)]

theorem readField_padded {n : Nat} (h : n < 100) {rest : List Char} (hrest : NoDigit rest) :
    readField ((padded 2 n).toList ++ rest) = some (n, rest) := by
  unfold readField
  rw [trimLeft_padded, readNumber_padded hrest (Nat.le_of_eq (length_padded (by decide) h))]

theorem toList_padded_two {n : Nat} (h : n < 100) :
    (padded 2 n).toList = [Nat.digitChar (n / 10), Nat.digitChar (n % 10)] := by
  rw [toList_padded]
  by_cases hn : n < 10
  · rw [Nat.toDigits_of_lt_base hn, Nat.div_eq_of_lt hn, Nat.mod_eq_of_lt hn]
    rfl
  · rw [Nat.toDigits_of_base_le (by decide) (Nat.le_of_not_lt hn),
      Nat.toDigits_of_lt_base (Nat.div_lt_of_lt_mul h)]
    rfl

/-! ## Parts of a point in time -/

theorem readYear_minus (cs : List Char) :
    readYear ('-' :: cs) = (readNumber cs.length cs).map fun p => (-(p.1 : Int), p.2) := by
  rw [readYear, trimLeft_cons (by decide)]
  rfl

theorem readYear_plus (cs : List Char) :
    readYear ('+' :: cs) = (readNumber cs.length cs).map fun p => ((p.1 : Int), p.2) := by
  rw [readYear, trimLeft_cons (by decide)]
  rfl

theorem readYear_digit {c : Char} (h : c.isDigit = true) (cs : List Char) :
    readYear (c :: cs) = (readNumber 4 (c :: cs)).map fun p => ((p.1 : Int), p.2) := by
  unfold readYear
  rw [trimLeft_cons (not_isBlank_of_isDigit h)]
  split
  · cases ‹c :: cs = _›
    cases h
  · cases ‹c :: cs = _›
    cases h
  · rfl

theorem readYear_renderYear (year : Int) (rest : List Char) :
    readYear ((renderYear year).toList ++ '-' :: rest) = some (year, '-' :: rest) := by
  have hrest : NoDigit ('-' :: rest) := by rfl
  have hsigned : readNumber ((padded 4 year.natAbs).toList ++ '-' :: rest).length
      ((padded 4 year.natAbs).toList ++ '-' :: rest) = some (year.natAbs, '-' :: rest) :=
    readNumber_padded hrest (by rw [List.length_append]; omega)
  unfold renderYear
  split
  · rename_i hyear
    have hfour : (padded 4 year.natAbs).toList.length = 4 := length_padded (by decide) (by omega)
    have hread := readNumber_padded hrest (Nat.le_of_eq hfour)
    obtain ⟨c, cs, hcs⟩ := List.exists_cons_of_ne_nil (padded_ne_nil 4 year.natAbs)
    have hc : c.isDigit = true := isDigit_of_mem_padded (hcs ▸ List.mem_cons_self)
    rw [hcs, List.cons_append] at hread ⊢
    rw [readYear_digit hc, hread, Option.map_some, Int.natAbs_of_nonneg hyear.1]
  · rename_i hyear
    by_cases hneg : year < 0
    · simp only [hneg, if_true, String.toList_append, String.reduceToList, List.cons_append,
        List.nil_append]
      rw [readYear_minus, hsigned, Option.map_some, Int.ofNat_natAbs_of_nonpos (by omega),
        Int.neg_neg]
    · simp only [hneg, if_false, String.toList_append, String.reduceToList, List.cons_append,
        List.nil_append]
      rw [readYear_plus, hsigned, Option.map_some, Int.natAbs_of_nonneg (by omega)]

theorem skipMark_cons {mark : Char} (h : Text.isBlank mark = false) (cs : List Char) :
    skipMark mark (mark :: cs) = some cs := by
  rw [skipMark, trimLeft_cons h]
  exact if_pos rfl

/-- A fraction of three, six or nine digits. -/
theorem readFraction_padded {width n : Nat} (hwidth : 0 < width) (hle : width ≤ 9)
    (hn : n < 10 ^ width) {rest : List Char} (hrest : NoDigit rest) :
    readFraction (("." ++ padded width n).toList ++ rest) = some (n * Nat.pow 10 (9 - width), rest) := by
  have hdigits : ((padded width n).toList ++ rest).takeWhile Char.isDigit =
      (padded width n).toList := takeWhile_digits (fun _ => isDigit_of_mem_padded) hrest
  have hlength := length_padded hwidth hn
  have htext : ("." ++ padded width n).toList ++ rest =
      '.' :: ((padded width n).toList ++ rest) := by
    simp only [String.toList_append, String.reduceToList, List.cons_append, List.nil_append]
  rw [htext, readFraction]
  rw [hdigits, List.take_of_length_le (Nat.le_trans (Nat.le_of_eq hlength) hle), digitsValue_padded,
    List.drop_left, hlength, if_neg (by simpa using padded_ne_nil width n)]

theorem readFraction_renderFraction {n : Nat} (hn : n < 1000000000) {c : Char}
    (hdigit : c.isDigit = false) (hpoint : c ≠ '.') (rest : List Char) :
    readFraction ((renderFraction n).toList ++ c :: rest) = some (n, c :: rest) := by
  have hrest : NoDigit (c :: rest) := hdigit
  unfold renderFraction
  split
  · rename_i hzero
    subst hzero
    change readFraction (c :: rest) = _
    unfold readFraction
    split
    · cases ‹c :: rest = _›
      exact absurd rfl hpoint
    · rfl
  · split
    · rename_i hmillis
      have hscale : Nat.pow 10 (9 - 3) = 1000000 := rfl
      rw [readFraction_padded (by decide) (by decide) (by omega) hrest, hscale,
        Nat.div_mul_cancel (Nat.dvd_of_mod_eq_zero hmillis)]
    · split
      · rename_i hmicros
        have hscale : Nat.pow 10 (9 - 6) = 1000 := rfl
        rw [readFraction_padded (by decide) (by decide) (by omega) hrest, hscale,
          Nat.div_mul_cancel (Nat.dvd_of_mod_eq_zero hmicros)]
      · have hscale : Nat.pow 10 (9 - 9) = 1 := rfl
        rw [readFraction_padded (by decide) (by decide) hn hrest, hscale, Nat.mul_one]

theorem noDigit_renderFraction (n : Nat) {c : Char} (h : c.isDigit = false) (rest : List Char) :
    NoDigit ((renderFraction n).toList ++ c :: rest) := by
  have hpoint (s : String) : NoDigit (("." ++ s).toList ++ c :: rest) := by
    simp only [String.toList_append, String.reduceToList, List.cons_append]
    rfl
  unfold renderFraction
  split
  · exact h
  · split
    · exact hpoint _
    · split <;> exact hpoint _

theorem digitChar_lt_six {n : Nat} (h : n < 6) : Nat.digitChar n < '6' := by
  have hall : ∀ n : Fin 6, Nat.digitChar n < '6' := by decide
  exact hall ⟨n, h⟩

theorem readHoursMinutes_padded {n : Nat} (h : n < 1440) :
    readHoursMinutes ((padded 2 (n / 60)).toList ++ ':' :: (padded 2 (n % 60)).toList) =
      some (n, []) := by
  have hhours : n / 60 < 100 := by omega
  have hminutes : n % 60 < 100 := by omega
  have hvalue := digitsValue_padded 2 (n / 60)
  have hvalue' := digitsValue_padded 2 (n % 60)
  rw [toList_padded_two hhours] at hvalue ⊢
  rw [toList_padded_two hminutes] at hvalue' ⊢
  have hdigit {k : Nat} (hk : k < 10) : (Nat.digitChar k).isDigit = true := by
    rw [Nat.isDigit_digitChar, decide_eq_true hk]
  have hfirst : (Nat.digitChar (n % 60 / 10) == ':' ||
      Text.isBlank (Nat.digitChar (n % 60 / 10))) = false := by
    rw [not_isBlank_of_isDigit (hdigit (by omega)), Bool.or_false, beq_eq_false_iff_ne]
    exact Nat.digitChar_ne ':' (by decide)
  have hall : [Nat.digitChar (n / 60 / 10), Nat.digitChar (n / 60 % 10),
      Nat.digitChar (n % 60 / 10), Nat.digitChar (n % 60 % 10)].all Char.isDigit = true := by
    simp only [List.all_cons, List.all_nil, Bool.and_true, Bool.and_eq_true]
    exact ⟨hdigit (by omega), hdigit (by omega), hdigit (by omega), hdigit (by omega)⟩
  simp only [List.cons_append, List.nil_append, readHoursMinutes]
  rw [List.dropWhile_cons_of_pos (by rfl), List.dropWhile_cons_of_neg (by simp [hfirst])]
  dsimp only
  rw [hall, decide_eq_true (digitChar_lt_six (by omega)), Bool.and_true, if_pos rfl, hvalue,
    hvalue', Nat.div_add_mod']

theorem readOffset_minus (cs : List Char) :
    readOffset ('-' :: cs) = (readHoursMinutes cs).map fun p => (-(p.1 : Int), p.2) := by
  have hword : (('-' :: cs).take 3).map Char.toUpper ≠ ['U', 'T', 'C'] := fun h =>
    absurd (List.cons.inj h).1 (by decide)
  rw [readOffset, if_neg hword]

theorem readOffset_plus (cs : List Char) :
    readOffset ('+' :: cs) = (readHoursMinutes cs).map fun p => ((p.1 : Int), p.2) := by
  have hword : (('+' :: cs).take 3).map Char.toUpper ≠ ['U', 'T', 'C'] := fun h =>
    absurd (List.cons.inj h).1 (by decide)
  rw [readOffset, if_neg hword]

/-- The offset, and that it can end a number without a fraction. -/
theorem readOffset_renderOffset {offset : Int} (h : offset.natAbs < 24 * 60) :
    ∃ c cs, (renderOffset offset).toList = c :: cs ∧ c ∈ ['Z', '+', '-'] ∧
      readOffset (c :: cs) = some (offset, []) := by
  have hread := readHoursMinutes_padded h
  unfold renderOffset
  split
  · rename_i hzero
    subst hzero
    exact ⟨'Z', [], by decide⟩
  · by_cases hneg : offset < 0
    · simp only [hneg, if_true, String.toList_append, String.reduceToList, List.cons_append,
        List.nil_append, List.append_assoc]
      refine ⟨'-', _, rfl, by decide, ?_⟩
      rw [readOffset_minus, hread, Option.map_some, Int.ofNat_natAbs_of_nonpos (by omega),
        Int.neg_neg]
    · simp only [hneg, if_false, String.toList_append, String.reduceToList, List.cons_append,
        List.nil_append, List.append_assoc]
      refine ⟨'+', _, rfl, by decide, ?_⟩
      rw [readOffset_plus, hread, Option.map_some, Int.natAbs_of_nonneg (by omega)]

theorem toList_render (t : Timestamp) : t.render.toList =
    (renderYear t.year).toList ++ '-' :: ((padded 2 t.month).toList ++
      '-' :: ((padded 2 t.day).toList ++ 'T' :: ((padded 2 t.hour).toList ++
        ':' :: ((padded 2 t.minute).toList ++ ':' :: ((padded 2 t.second).toList ++
          ((renderFraction t.nanosecond).toList ++ (renderOffset t.offset).toList)))))) := by
  simp only [render, String.toList_append, String.reduceToList, List.append_assoc, List.cons_append,
    List.nil_append]

theorem daysInMonth_le (year : Int) (month : Nat) : daysInMonth year month ≤ 31 := by
  unfold daysInMonth
  split
  · split <;> decide
  all_goals decide

theorem parse_render {t : Timestamp} (h : t.isValid = true) : parse t.render = some t := by
  have hvalid := h
  simp only [isValid, Bool.and_eq_true, decide_eq_true_eq, and_assoc] at hvalid
  obtain ⟨-, -, -, hmonth, -, hday, hhour, hminute, hsecond, hnano, hoffset, -⟩ := hvalid
  have hdays := daysInMonth_le t.year t.month
  obtain ⟨c, cs, htail, hc, hread⟩ := readOffset_renderOffset hoffset
  have hmark : c.isDigit = false ∧ c ≠ '.' ∧ Text.isBlank c = false := by
    simp only [List.mem_cons, List.not_mem_nil, or_false] at hc
    rcases hc with rfl | rfl | rfl <;> decide
  have hend := noDigit_renderFraction t.nanosecond hmark.1 cs
  -- Behind each field stands a mark that is no digit, so all its digits are read and no more.
  have hdash (rest : List Char) : NoDigit ('-' :: rest) := by rfl
  have hcolon (rest : List Char) : NoDigit (':' :: rest) := by rfl
  have hdivider (rest : List Char) : NoDigit ('T' :: rest) := by rfl
  have hskip : Text.isBlank '-' = false ∧ Text.isBlank ':' = false := by decide
  have hT (rest : List Char) : skipDivider ('T' :: rest) = some rest := rfl
  unfold parse
  rw [toList_render, htail, readYear_renderYear]
  dsimp only [Option.bind_eq_bind, Option.bind_some]
  rw [skipMark_cons hskip.1, Option.bind_some, readField_padded (by omega) (hdash _)]
  dsimp only [Option.bind_some]
  rw [skipMark_cons hskip.1, Option.bind_some, readField_padded (by omega) (hdivider _)]
  dsimp only [Option.bind_some]
  rw [hT, Option.bind_some, readField_padded (by omega) (hcolon _)]
  dsimp only [Option.bind_some]
  rw [skipMark_cons hskip.2, Option.bind_some, readField_padded (by omega) (hcolon _)]
  dsimp only [Option.bind_some]
  rw [skipMark_cons hskip.2, Option.bind_some, readField_padded (by omega) hend]
  dsimp only [Option.bind_some]
  rw [readFraction_renderFraction hnano hmark.1 hmark.2.1]
  dsimp only [Option.bind_some]
  rw [trimLeft_cons hmark.2.2, hread]
  dsimp only [Option.bind_some]
  rw [h]
  rfl

end Entailment.Timestamp
