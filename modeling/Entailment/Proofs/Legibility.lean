import Entailment.Proofs.Restoration

/-! What the text of a formula shows. As long as names are free of the marks of the
notation, a formula can be read off its text, except that variables and constants
look alike. -/
namespace Entailment

/-- Characters that stand in the text of a formula beside names. -/
def marks : List Char := ['(', ')', ',', ' ', ':', '¬', '∀', '∃']

def isUnmarked (c : Char) : Bool := !marks.contains c

namespace Symbols

/-- A symbol of the table with a name that has no marks in it. -/
def Legible (σ : Symbols) (a : Symbol) : Prop :=
  σ.Knows a ∧ (σ.name a).toList ≠ [] ∧ (σ.name a).toList.all isUnmarked = true

instance (σ : Symbols) (a : Symbol) : Decidable (σ.Legible a) :=
  inferInstanceAs (Decidable (_ ∧ _ ∧ _))

end Symbols

namespace Term

mutual

/-- The term as its text shows it. -/
def blur : Term → Term
  | .var x => .const x
  | .const c => .const c
  | .app f args => .app f (blurAll args)

def blurAll : List Term → List Term
  | [] => []
  | t :: ts => t.blur :: blurAll ts

end

@[simp] theorem blurAll_eq (ts : List Term) : blurAll ts = ts.map blur := by
  induction ts with
  | nil => rfl
  | cons t ts ih => rw [blurAll, ih, List.map_cons]

end Term

namespace Formula

/-- The formula as its text shows it: with constants in the place of variables. -/
def blur : Formula → Formula
  | .rel r args => .rel r (args.map Term.blur)
  | .eq l r => .eq l.blur r.blur
  | .not f => .not f.blur
  | .and f g => .and f.blur g.blur
  | .or f g => .or f.blur g.blur
  | .imp f g => .imp f.blur g.blur
  | .iff f g => .iff f.blur g.blur
  | .all x f => .all x f.blur
  | .ex x f => .ex x f.blur

end Formula

namespace Reading

variable {σ : Symbols}

/-- The name at the start of a text, and what follows it. -/
def name (σ : Symbols) (cs : List Char) : Symbol × List Char :=
  (σ.find (String.ofList (cs.takeWhile isUnmarked)), cs.dropWhile isUnmarked)

/-- A name ends where the text does not begin with a character of names. -/
def Stops (rest : List Char) : Prop := ∀ c ∈ rest.head?, isUnmarked c = false

theorem name_append {a : Symbol} (ha : σ.Legible a) {rest : List Char} (hrest : Stops rest) :
    name σ ((σ.name a).toList ++ rest) = (a, rest) := by
  obtain ⟨hknown, -, hplain⟩ := ha
  rw [List.all_eq_true] at hplain
  have htake : rest.takeWhile isUnmarked = [] ∧ rest.dropWhile isUnmarked = rest := by
    cases rest with
    | nil => exact ⟨rfl, rfl⟩
    | cons c rest =>
      have hc := hrest c rfl
      simp [hc]
  unfold name
  rw [List.takeWhile_append_of_pos hplain, List.dropWhile_append_of_pos hplain, htake.1, htake.2,
    List.append_nil, String.ofList_toList, Symbols.find_name hknown]

mutual

/-- Reads a term, with constants in the place of variables. -/
def term (σ : Symbols) : Nat → List Char → Option (Term × List Char)
  | 0, _ => none
  | n + 1, cs =>
    match name σ cs with
    | (f, '(' :: ')' :: rest) => some (.app f [], rest)
    | (f, '(' :: rest) => do
      let (ts, rest) ← terms σ n rest
      return (.app f ts, rest)
    | (c, rest) => some (.const c, rest)

/-- Reads terms between commas up to a closing parenthesis. -/
def terms (σ : Symbols) : Nat → List Char → Option (List Term × List Char)
  | 0, _ => none
  | n + 1, cs => do
    match ← term σ n cs with
    | (t, ')' :: rest) => return ([t], rest)
    | (t, ',' :: ' ' :: rest) =>
      let (ts, rest) ← terms σ n rest
      return (t :: ts, rest)
    | _ => none

end

/-- What can follow a term. -/
def AfterTerm (rest : List Char) : Prop := Stops rest ∧ rest.head? ≠ some '('

theorem afterTerm_cons {c : Char} (hc : isUnmarked c = false) (hparen : c ≠ '(') (rest : List Char) :
    AfterTerm (c :: rest) := by
  refine ⟨fun d hd => ?_, fun h => hparen (Option.some.inj h)⟩
  rwa [← Option.some.inj hd]

theorem stops_cons {c : Char} (hc : isUnmarked c = false) (rest : List Char) : Stops (c :: rest) := by
  intro d hd
  rwa [← Option.some.inj hd]

/-- Reading gives back the term from its text and leaves what follows it. -/
def Reads (σ : Symbols) (t : Term) : Prop :=
  ∀ n rest, (t.render σ).toList.length ≤ n → AfterTerm rest →
    term σ n ((t.render σ).toList ++ rest) = some (t.blur, rest)

theorem reads_name {a : Symbol} (ha : σ.Legible a) {n : Nat} {rest : List Char}
    (hn : (σ.name a).toList.length ≤ n) (hrest : AfterTerm rest) :
    term σ n ((σ.name a).toList ++ rest) = some (.const a, rest) := by
  have hpos := List.length_pos_of_ne_nil ha.2.1
  obtain ⟨n, rfl⟩ : ∃ m, n = m + 1 := ⟨n - 1, by omega⟩
  rw [term, name_append ha hrest.1]
  cases rest with
  | nil => rfl
  | cons c rest =>
    have hc : c ≠ '(' := fun h => hrest.2 (congrArg some h)
    simp [hc]

theorem terms_renderArgs {ts : List Term} (hts : ∀ t ∈ ts, Reads σ t) (hne : ts ≠ []) {n : Nat}
    (hn : (Term.renderArgs σ ts).toList.length < n) (rest : List Char) :
    terms σ n ((Term.renderArgs σ ts).toList ++ ')' :: rest) = some (ts.map Term.blur, rest) := by
  induction ts generalizing n with
  | nil => exact absurd rfl hne
  | cons t ts ih =>
    obtain ⟨n, rfl⟩ : ∃ m, n = m + 1 := ⟨n - 1, by omega⟩
    have ht := hts t List.mem_cons_self
    cases ts with
    | nil =>
      rw [Term.renderArgs] at hn ⊢
      rw [terms, ht n _ (by omega) (afterTerm_cons rfl (by decide) rest)]
      rfl
    | cons u us =>
      rw [Term.renderArgs] at hn ⊢
      simp only [String.toList_append, String.reduceToList, List.length_append, List.append_assoc,
        List.cons_append, List.nil_append, List.length_cons] at hn ⊢
      have hus := ih (fun v hv => hts v (List.mem_cons_of_mem t hv)) (List.cons_ne_nil u us)
        (n := n) (by omega)
      rw [terms, ht n _ (by omega) (afterTerm_cons rfl (by decide) _)]
      simp [hus]

/-- The text begins with a character of names. -/
def Begins (text : List Char) : Prop := ∃ c cs, text = c :: cs ∧ isUnmarked c = true

theorem Begins.append {text : List Char} (h : Begins text) (rest : List Char) :
    Begins (text ++ rest) := by
  obtain ⟨c, cs, rfl, hc⟩ := h
  exact ⟨c, cs ++ rest, rfl, hc⟩

theorem begins_name {a : Symbol} (ha : σ.Legible a) : Begins (σ.name a).toList := by
  obtain ⟨-, hne, hplain⟩ := ha
  rw [List.all_eq_true] at hplain
  obtain ⟨c, cs, hchars⟩ := List.exists_cons_of_ne_nil hne
  exact ⟨c, cs, hchars, hplain c (hchars ▸ List.mem_cons_self)⟩

theorem begins_term {t : Term} (ht : ∀ a ∈ t.symbols, σ.Legible a) :
    Begins (t.render σ).toList := by
  cases t with
  | var x => exact begins_name (ht x (by simp))
  | const c => exact begins_name (ht c (by simp))
  | app f args =>
    rw [Term.render, String.append_assoc, String.append_assoc, String.toList_append]
    exact (begins_name (ht f (by simp))).append _

theorem begins_renderArgs {t : Term} (ht : ∀ a ∈ t.symbols, σ.Legible a) (ts : List Term) :
    Begins (Term.renderArgs σ (t :: ts)).toList := by
  cases ts with
  | nil => exact begins_term ht
  | cons u us =>
    rw [Term.renderArgs, String.append_assoc, String.toList_append]
    exact (begins_term ht).append _

theorem reads_term {t : Term} (ht : ∀ a ∈ t.symbols, σ.Legible a) : Reads σ t := by
  induction t using Term.rec_args with
  | var x => exact fun n rest hn hrest => reads_name (ht x (by simp)) hn hrest
  | const c => exact fun n rest hn hrest => reads_name (ht c (by simp)) hn hrest
  | app f args ih =>
    have hf := ht f (by simp)
    have hargs (t : Term) (hmem : t ∈ args) : Reads σ t :=
      ih t hmem fun a ha => ht a (Term.mem_symbols_app.mpr (.inr ⟨t, hmem, ha⟩))
    intro n rest hn hrest
    have hpos := List.length_pos_of_ne_nil hf.2.1
    rw [Term.render] at hn ⊢
    simp only [String.toList_append, String.reduceToList, List.length_append, List.append_assoc,
      List.cons_append, List.nil_append, List.length_cons, List.length_nil] at hn ⊢
    obtain ⟨n, rfl⟩ : ∃ m, n = m + 1 := ⟨n - 1, by omega⟩
    rw [term, name_append hf (stops_cons rfl _)]
    cases args with
    | nil => rfl
    | cons u us =>
      have hread := terms_renderArgs hargs (List.cons_ne_nil u us) (n := n) (by omega) rest
      have hu (a : Symbol) (ha : a ∈ u.symbols) : σ.Legible a :=
        ht a (Term.mem_symbols_app.mpr (.inr ⟨u, List.mem_cons_self, ha⟩))
      obtain ⟨c, cs, htext, hc⟩ := begins_renderArgs hu us
      have hparen : c ≠ ')' := fun h => by simp [h, isUnmarked, marks] at hc
      rw [htext] at hread ⊢
      simp only [List.cons_append] at hread ⊢
      simp [hparen, hread, Term.blur]

/-- How the text of a formula begins. -/
inductive Opening where
  | negation
  | universal
  | existential
  | group
  | atom

def opening : List Char → Opening × List Char
  | '¬' :: cs => (.negation, cs)
  | '(' :: '∀' :: cs => (.universal, cs)
  | '(' :: '∃' :: cs => (.existential, cs)
  | '(' :: cs => (.group, cs)
  | cs => (.atom, cs)

/-- The name at a quantifier. -/
def bound (σ : Symbols) (cs : List Char) : Option (Symbol × List Char) :=
  match name σ cs with
  | (x, ':' :: ' ' :: rest) => some (x, rest)
  | _ => none

/-- The sign between the parts of a group. -/
def link : List Char → Option ((Formula → Formula → Formula) × List Char)
  | ' ' :: '∧' :: ' ' :: cs => some (.and, cs)
  | ' ' :: '∨' :: ' ' :: cs => some (.or, cs)
  | ' ' :: '→' :: ' ' :: cs => some (.imp, cs)
  | ' ' :: '<' :: '=' :: '>' :: ' ' :: cs => some (.iff, cs)
  | _ => none

/-- The sign between the sides of an equation or of its negation. -/
def side : List Char → Option ((Term → Term → Formula) × List Char)
  | ' ' :: '=' :: ' ' :: cs => some (.eq, cs)
  | ' ' :: '≠' :: ' ' :: cs => some (fun l r => .not (.eq l r), cs)
  | _ => none

def closed (f : Formula) : List Char → Option (Formula × List Char)
  | ')' :: rest => some (f, rest)
  | _ => none

def atom (σ : Symbols) (n : Nat) (cs : List Char) : Option (Formula × List Char) := do
  let (t, rest) ← term σ n cs
  match side rest, t with
  | some (equation, rest), _ =>
    let (u, rest) ← term σ n rest
    return (equation t u, rest)
  | none, .app r args => return (.rel r args, rest)
  | none, .const r => return (.rel r [], rest)
  | none, .var _ => none

/-- Reads a formula, with constants in the place of variables. -/
def formula (σ : Symbols) : Nat → List Char → Option (Formula × List Char)
  | 0, _ => none
  | n + 1, cs =>
    match opening cs with
    | (.negation, rest) => do
      let (f, rest) ← formula σ n rest
      return (.not f, rest)
    | (.universal, rest) => do
      let (x, rest) ← bound σ rest
      let (f, rest) ← formula σ n rest
      closed (.all x f) rest
    | (.existential, rest) => do
      let (x, rest) ← bound σ rest
      let (f, rest) ← formula σ n rest
      closed (.ex x f) rest
    | (.group, rest) => do
      let (f, rest) ← formula σ n rest
      let (connect, rest) ← link rest
      let (g, rest) ← formula σ n rest
      closed (connect f g) rest
    | (.atom, rest) => atom σ n rest

/-- What can follow a formula. -/
def AfterFormula (rest : List Char) : Prop := AfterTerm rest ∧ side rest = none

theorem opening_of_begins {cs : List Char} (h : Begins cs) : opening cs = (.atom, cs) := by
  obtain ⟨c, cs, rfl, hc⟩ := h
  have hnot : c ≠ '¬' := fun h => by simp [h, isUnmarked, marks] at hc
  have hparen : c ≠ '(' := fun h => by simp [h, isUnmarked, marks] at hc
  simp [opening, hnot, hparen]

theorem begins_rel {r : Symbol} {args : List Term} (hr : σ.Legible r) :
    Begins ((Formula.rel r args).render σ).toList := by
  rw [Formula.render_rel]
  split
  · exact begins_name hr
  · rw [String.append_assoc, String.append_assoc, String.toList_append]
    exact (begins_name hr).append _

theorem begins_eq {l r : Term} (hl : ∀ a ∈ l.symbols, σ.Legible a) :
    Begins ((Formula.eq l r).render σ).toList ∧ Begins ((Formula.not (.eq l r)).render σ).toList := by
  constructor
  · rw [Formula.render, String.append_assoc, String.toList_append]
    exact (begins_term hl).append _
  · rw [Formula.render, String.append_assoc, String.toList_append]
    exact (begins_term hl).append _

theorem opening_group {f : Formula} (hf : ∀ a ∈ f.symbols, σ.Legible a) (rest : List Char) :
    opening ('(' :: ((f.render σ).toList ++ rest)) = (.group, (f.render σ).toList ++ rest) := by
  have hplain {cs : List Char} (h : Begins cs) :
      opening ('(' :: (cs ++ rest)) = (.group, cs ++ rest) := by
    obtain ⟨c, cs, rfl, hc⟩ := h
    have hall : c ≠ '∀' := fun h => by simp [h, isUnmarked, marks] at hc
    have hex : c ≠ '∃' := fun h => by simp [h, isUnmarked, marks] at hc
    simp [opening, hall, hex]
  cases f with
  | rel r args => exact hplain (begins_rel (hf r List.mem_cons_self))
  | eq l r => exact hplain (begins_eq fun a ha => hf a (List.mem_append_left _ ha)).1
  | not f =>
    by_cases heq : ∃ l r, f = .eq l r
    · obtain ⟨l, r, rfl⟩ := heq
      exact hplain (begins_eq fun a ha => hf a (List.mem_append_left _ ha)).2
    · rw [Formula.render_not fun l r h => heq ⟨l, r, h⟩]
      simp [opening]
  | and f g | or f g | imp f g | iff f g => simp [Formula.render, opening]
  | all x f | ex x f => simp [Formula.render, opening]

theorem atom_rel {r : Symbol} {args : List Term}
    (hf : ∀ a ∈ (Formula.rel r args).symbols, σ.Legible a) {n : Nat} {rest : List Char}
    (hn : ((Formula.rel r args).render σ).toList.length ≤ n) (hrest : AfterFormula rest) :
    atom σ n (((Formula.rel r args).render σ).toList ++ rest) =
      some (.rel r (args.map Term.blur), rest) := by
  -- a relation looks like a constant, or like an application
  cases args with
  | nil =>
    have hread := reads_name (hf r List.mem_cons_self) hn hrest.1
    change term σ n (((Formula.rel r []).render σ).toList ++ rest) = _ at hread
    simp [atom, hread, hrest.2]
  | cons t ts =>
    have hterm : ∀ a ∈ (Term.app r (t :: ts)).symbols, σ.Legible a := hf
    have hread := reads_term hterm n rest hn hrest.1
    change term σ n (((Formula.rel r (t :: ts)).render σ).toList ++ rest) = _ at hread
    simp [atom, hread, hrest.2, Term.blur]

theorem atom_eq {l r : Term} (hl : ∀ a ∈ l.symbols, σ.Legible a)
    (hr : ∀ a ∈ r.symbols, σ.Legible a) {n : Nat} {rest : List Char} (hrest : AfterTerm rest)
    (hn : (l.render σ).toList.length + (r.render σ).toList.length ≤ n) :
    atom σ n (((Formula.eq l r).render σ).toList ++ rest) = some (.eq l.blur r.blur, rest) ∧
    atom σ n (((Formula.not (.eq l r)).render σ).toList ++ rest) =
      some (.not (.eq l.blur r.blur), rest) := by
  have hleft (text : List Char) := reads_term hl n (' ' :: text) (by omega)
    (afterTerm_cons rfl (by decide) _)
  have hright := reads_term hr n rest (by omega) hrest
  constructor
  · simp [Formula.render, atom, hleft, hright, side]
  · simp [Formula.render, atom, hleft, hright, side]

theorem bound_append {x : Symbol} (hx : σ.Legible x) (rest : List Char) :
    bound σ ((σ.name x).toList ++ ':' :: ' ' :: rest) = some (x, rest) := by
  unfold bound
  rw [name_append hx (stops_cons rfl _)]
  rfl

theorem afterFormula_paren (rest : List Char) : AfterFormula (')' :: rest) :=
  ⟨afterTerm_cons rfl (by decide) rest, rfl⟩

/-- A formula can be read off its text, up to the difference between variables and
constants. -/
theorem formula_render {f : Formula} (hf : ∀ a ∈ f.symbols, σ.Legible a) {n : Nat}
    {rest : List Char} (hn : (f.render σ).toList.length < n) (hrest : AfterFormula rest) :
    formula σ n ((f.render σ).toList ++ rest) = some (f.blur, rest) := by
  induction f generalizing n rest with
  | rel r args =>
    obtain ⟨n, rfl⟩ : ∃ m, n = m + 1 := ⟨n - 1, by omega⟩
    rw [formula, opening_of_begins ((begins_rel (hf r List.mem_cons_self)).append rest)]
    exact atom_rel hf (by omega) hrest
  | eq l r =>
    obtain ⟨n, rfl⟩ : ∃ m, n = m + 1 := ⟨n - 1, by omega⟩
    have hl (a : Symbol) (ha : a ∈ l.symbols) := hf a (List.mem_append_left _ ha)
    have hr (a : Symbol) (ha : a ∈ r.symbols) := hf a (List.mem_append_right _ ha)
    have hlength : (l.render σ).toList.length + (r.render σ).toList.length ≤ n := by
      simp [Formula.render] at hn
      omega
    rw [formula, opening_of_begins ((begins_eq hl).1.append rest)]
    exact (atom_eq hl hr hrest.1 hlength).1
  | not f ih =>
    obtain ⟨n, rfl⟩ : ∃ m, n = m + 1 := ⟨n - 1, by omega⟩
    -- A negated equation is written with its own sign, any other negation with the usual one.
    by_cases heq : ∃ l r, f = .eq l r
    · obtain ⟨l, r, rfl⟩ := heq
      have hl (a : Symbol) (ha : a ∈ l.symbols) := hf a (List.mem_append_left _ ha)
      have hr (a : Symbol) (ha : a ∈ r.symbols) := hf a (List.mem_append_right _ ha)
      have hlength : (l.render σ).toList.length + (r.render σ).toList.length ≤ n := by
        simp [Formula.render] at hn
        omega
      rw [formula, opening_of_begins ((begins_eq hl).2.append rest)]
      exact (atom_eq hl hr hrest.1 hlength).2
    · rw [Formula.render_not fun l r h => heq ⟨l, r, h⟩, String.toList_append] at hn ⊢
      simp only [String.reduceToList, List.length_append, List.length_cons, List.length_nil] at hn
      have hread := ih hf (n := n) (by omega) hrest
      simp [formula, opening, hread, Formula.blur]
  | and f g ihf ihg | or f g ihf ihg | imp f g ihf ihg | iff f g ihf ihg =>
    obtain ⟨n, rfl⟩ : ∃ m, n = m + 1 := ⟨n - 1, by omega⟩
    have hleft (a : Symbol) (ha : a ∈ f.symbols) := hf a (List.mem_append_left _ ha)
    have hright (a : Symbol) (ha : a ∈ g.symbols) := hf a (List.mem_append_right _ ha)
    rw [Formula.render] at hn ⊢
    simp only [String.toList_append, String.reduceToList, List.length_append, List.append_assoc,
      List.cons_append, List.nil_append, List.length_cons] at hn ⊢
    rw [formula, opening_group hleft]
    dsimp only
    rw [ihf hleft (by omega) ⟨afterTerm_cons rfl (by decide) _, rfl⟩]
    simp only [Option.bind_eq_bind, Option.bind_some, link]
    rw [ihg hright (by omega) (afterFormula_paren rest)]
    rfl
  | all x f ih | ex x f ih =>
    obtain ⟨n, rfl⟩ : ∃ m, n = m + 1 := ⟨n - 1, by omega⟩
    have hx := hf x List.mem_cons_self
    have hbody (a : Symbol) (ha : a ∈ f.symbols) := hf a (List.mem_cons_of_mem x ha)
    rw [Formula.render] at hn ⊢
    simp only [String.toList_append, String.reduceToList, List.length_append, List.append_assoc,
      List.cons_append, List.nil_append, List.length_cons] at hn ⊢
    rw [formula, opening]
    dsimp only
    rw [bound_append hx]
    simp only [Option.bind_eq_bind, Option.bind_some]
    rw [ih hbody (by omega) (afterFormula_paren rest)]
    rfl

end Reading

section Text

variable {σ : Symbols}

theorem Term.render_blur (t : Term) : t.blur.render σ = t.render σ := by
  induction t using rec_args with
  | var x => rfl
  | const c => rfl
  | app f args ih => rw [blur, blurAll_eq, render, render, renderArgs_map ih]

namespace Formula

theorem render_blur (f : Formula) : f.blur.render σ = f.render σ := by
  induction f with
  | rel r args =>
    rw [blur, render_rel, render_rel, Term.renderArgs_map fun t _ => Term.render_blur t,
      List.isEmpty_map]
  | eq l r => rw [blur, render, render, Term.render_blur, Term.render_blur]
  | not f ih =>
    by_cases hf : ∃ l r, f = .eq l r
    · obtain ⟨l, r, rfl⟩ := hf
      simp only [blur, render, Term.render_blur]
    · rw [blur, render_not, render_not, ih]
      · exact fun l r hlr => hf ⟨l, r, hlr⟩
      · intro l r hlr
        cases f <;> cases hlr
        exact hf ⟨_, _, rfl⟩
  | and f g ihf ihg | or f g ihf ihg | imp f g ihf ihg | iff f g ihf ihg =>
    rw [blur, render, render, ihf, ihg]
  | all x f ih | ex x f ih => rw [blur, render, render, ih]

/-- No text of a formula is the beginning of another one's, unless they look alike. -/
theorem blur_eq_of_render {f g : Formula} (hf : ∀ a ∈ f.symbols, σ.Legible a)
    (hg : ∀ a ∈ g.symbols, σ.Legible a) {rest rest' : List Char}
    (hrest : Reading.AfterFormula rest) (hrest' : Reading.AfterFormula rest')
    (h : (f.render σ).toList ++ rest = (g.render σ).toList ++ rest') :
    f.blur = g.blur ∧ rest = rest' := by
  have hreadf := Reading.formula_render hf
    (n := (f.render σ).toList.length + (g.render σ).toList.length + 1) (by omega) hrest
  have hreadg := Reading.formula_render hg
    (n := (f.render σ).toList.length + (g.render σ).toList.length + 1) (by omega) hrest'
  rw [h, hreadg, Option.some.injEq, Prod.mk.injEq] at hreadf
  exact ⟨hreadf.1.symm, hreadf.2.symm⟩

end Formula

end Text

namespace Term

mutual

/-- The term in which the names of `scope` are variables and all others constants. -/
def resolve (scope : List Symbol) : Term → Term
  | .var x | .const x => if scope.contains x then .var x else .const x
  | .app f args => .app f (resolveAll scope args)

def resolveAll (scope : List Symbol) : List Term → List Term
  | [] => []
  | t :: ts => t.resolve scope :: resolveAll scope ts

end

theorem resolveAll_eq (scope : List Symbol) (ts : List Term) :
    resolveAll scope ts = ts.map (resolve scope) := by
  induction ts with
  | nil => rfl
  | cons t ts ih => rw [resolveAll, ih, List.map_cons]

theorem resolve_blur (scope : List Symbol) (t : Term) : t.blur.resolve scope = t.resolve scope := by
  induction t using rec_args with
  | var x => rfl
  | const c => rfl
  | app f args ih =>
    rw [blur, resolve, resolve, blurAll_eq, resolveAll_eq, resolveAll_eq, List.map_map]
    exact congrArg (app f) (List.map_congr_left ih)

end Term

namespace Formula

/-- The formula in which a name is a variable where it stands in the scope of a
quantifier for it, and a constant everywhere else. -/
def resolve (scope : List Symbol) : Formula → Formula
  | .rel r args => .rel r (args.map (Term.resolve scope))
  | .eq l r => .eq (l.resolve scope) (r.resolve scope)
  | .not f => .not (f.resolve scope)
  | .and f g => .and (f.resolve scope) (g.resolve scope)
  | .or f g => .or (f.resolve scope) (g.resolve scope)
  | .imp f g => .imp (f.resolve scope) (g.resolve scope)
  | .iff f g => .iff (f.resolve scope) (g.resolve scope)
  | .all x f => .all x (f.resolve (x :: scope))
  | .ex x f => .ex x (f.resolve (x :: scope))

theorem resolve_blur (scope : List Symbol) (f : Formula) :
    f.blur.resolve scope = f.resolve scope := by
  induction f generalizing scope with
  | rel r args =>
    rw [blur, resolve, resolve, List.map_map]
    exact congrArg (rel r) (List.map_congr_left fun t _ => Term.resolve_blur scope t)
  | eq l r => rw [blur, resolve, resolve, Term.resolve_blur, Term.resolve_blur]
  | not f ih => rw [blur, resolve, resolve, ih]
  | and f g ihf ihg | or f g ihf ihg | imp f g ihf ihg | iff f g ihf ihg =>
    rw [blur, resolve, resolve, ihf, ihg]
  | all x f ih | ex x f ih => rw [blur, resolve, resolve, ih]

end Formula

end Entailment
