import Entailment.Proofs.Legibility
import Entailment.Proofs.Signature

/-! A formula that was read can be told from its text. Its names are identifiers, so none of
them holds a mark of the notation. And a name is a variable exactly where a quantifier binds
it, so the text leaves nothing open although it shows variables and constants alike. -/
namespace Entailment

theorem isUnmarked_of_isIdentChar {c : Char} (h : Token.isIdentChar c = true) :
    isUnmarked c = true := by
  have hmarks : ∀ m ∈ marks, Token.isIdentChar m = false := by simp [marks, Token.isIdentChar]
  unfold isUnmarked
  rw [Bool.not_eq_true', ← Bool.not_eq_true, List.contains_iff_mem]
  intro hc
  rw [hmarks c hc] at h
  cases h

theorem Symbols.legible_of_isName {σ : Symbols} {a : Symbol} (hknows : σ.Knows a)
    (hname : Token.IsName (σ.name a)) : σ.Legible a := by
  refine ⟨hknows, fun hnil => hname.1 (String.toList_eq_nil_iff.mp hnil), ?_⟩
  exact List.all_eq_true.mpr fun c hc => isUnmarked_of_isIdentChar (hname.2 c hc)

/-- A name that is not being bound is a variable exactly in the scope of a quantifier for it. -/
def Occurrence.Resolved (o : Occurrence) : Prop :=
  o.role ≠ .binder → (o.role = .variable ↔ o.symbol ∈ o.scope)

theorem Term.resolve_eq_self {scope : List Symbol} {t : Term}
    (h : ∀ o ∈ t.occurrences scope, o.Resolved) : t.resolve scope = t := by
  induction t using rec_args with
  | var x =>
    have hx : x ∈ scope := (h ⟨x, .variable, scope⟩ (by simp [occurrences]) (by simp)).mp rfl
    rw [resolve, if_pos (List.contains_iff_mem.mpr hx)]
  | const c =>
    have hc : c ∉ scope := fun hmem =>
      Role.noConfusion ((h ⟨c, .constant, scope⟩ (by simp [occurrences]) (by simp)).mpr hmem)
    rw [resolve, if_neg (mt List.contains_iff_mem.mp hc)]
  | app f args ih =>
    have hargs (t : Term) (ht : t ∈ args) : t.resolve scope = t :=
      ih t ht fun o ho => h o (mem_occurrences_app.mpr (.inr ⟨t, ht, ho⟩))
    rw [resolve, resolveAll_eq, List.map_congr_left hargs, List.map_id']

namespace Formula

variable {σ σ' τ : Symbols} {text text' : String} {f g : Formula}

theorem resolve_eq_self {scope : List Symbol} (h : ∀ o ∈ f.occurrences scope, o.Resolved) :
    f.resolve scope = f := by
  induction f generalizing scope with
  | rel r args =>
    have hargs (t : Term) (ht : t ∈ args) : t.resolve scope = t :=
      Term.resolve_eq_self fun o ho =>
        h o (List.mem_cons_of_mem _ (Term.mem_occurrencesAll.mpr ⟨t, ht, ho⟩))
    rw [resolve, List.map_congr_left hargs, List.map_id']
  | eq l r =>
    obtain ⟨hl, hr⟩ := List.forall_mem_append.mp h
    rw [resolve, Term.resolve_eq_self hl, Term.resolve_eq_self hr]
  | not f ih => rw [resolve, ih h]
  | and f g ihf ihg | or f g ihf ihg | imp f g ihf ihg | iff f g ihf ihg =>
    obtain ⟨hf, hg⟩ := List.forall_mem_append.mp h
    rw [resolve, ihf hf, ihg hg]
  | all x f ih | ex x f ih => rw [resolve, ih (List.forall_mem_cons.mp h).2]

theorem WellFormed.legible (h : f.WellFormed σ) (hle : σ ≤ τ) : ∀ a ∈ f.symbols, τ.Legible a := by
  intro a ha
  have hknows := h.known a ha
  refine Symbols.legible_of_isName (hknows.mono hle) ?_
  rw [Symbols.name_eq_of_le hle hknows]
  exact h.names a ha

/-- Well-formed formulas with one text are the same formula. -/
theorem WellFormed.eq_of_render (hf : f.WellFormed σ) (hσ : σ ≤ τ) (hg : g.WellFormed σ')
    (hσ' : σ' ≤ τ) (h : f.render τ = g.render τ) : f = g := by
  have hend : Reading.AfterFormula [] := ⟨⟨by simp [Reading.Stops], by simp⟩, rfl⟩
  have hblur : f.blur = g.blur :=
    (blur_eq_of_render (hf.legible hσ) (hg.legible hσ') hend hend (by rw [h])).1
  calc
    f = f.resolve [] := (resolve_eq_self hf.bound).symm
    _ = g.resolve [] := by rw [← resolve_blur, hblur, resolve_blur]
    _ = g := resolve_eq_self hg.bound

/-- Two formulas that were read in one session have the same text, in any later table of the
session, exactly if they are equal. -/
theorem render_inj_of_parse (hf : (parse text σ).1 = .ok f) (hσ : (parse text σ).2 ≤ τ)
    (hg : (parse text' σ').1 = .ok g) (hσ' : (parse text' σ').2 ≤ τ) :
    f.render τ = g.render τ ↔ f = g := by
  constructor
  · exact (wellFormed_of_parse hf).eq_of_render hσ (wellFormed_of_parse hg) hσ'
  · exact fun h => congrArg (render τ) h

/-- The second `x` is a constant. -/
def outsideText : String := "(\\all x: P(x)) & !(x = c)"

def outsideFormula : Formula :=
  .and (.all ⟨0⟩ (.rel ⟨1⟩ [.var ⟨0⟩])) (.not (.eq (.const ⟨0⟩) (.const ⟨2⟩)))

/-- The second `x` is a variable. -/
def insideText : String := "*x: P(x) & x != c"

def insideFormula : Formula :=
  .all ⟨0⟩ (.and (.rel ⟨1⟩ [.var ⟨0⟩]) (.not (.eq (.var ⟨0⟩) (.const ⟨2⟩))))

/-- A table that has the names of both texts, so that reading them adds none. -/
def bothNames : Symbols := (Symbols.internAll ["x", "P", "c"] .empty).2

theorem render_inj_of_parse_inside :
    (parse outsideText bothNames).1 = .ok outsideFormula ∧
    (parse insideText bothNames).1 = .ok insideFormula ∧
    outsideFormula.render bothNames ≠ insideFormula.render bothNames := by
  have houtside : (parse outsideText bothNames).1 = .ok outsideFormula := by decide +kernel
  have hinside : (parse insideText bothNames).1 = .ok insideFormula := by decide +kernel
  have hkept : (parse outsideText bothNames).2.names = bothNames.names ∧
      (parse insideText bothNames).2.names = bothNames.names := by
    decide +kernel
  have hle {text : String} (h : (parse text bothNames).2.names = bothNames.names) :
      (parse text bothNames).2 ≤ bothNames :=
    fun i name hi => h ▸ hi
  refine ⟨houtside, hinside, fun h => ?_⟩
  exact absurd ((render_inj_of_parse houtside (hle hkept.1) hinside (hle hkept.2)).mp h) (by decide)

end Formula

end Entailment
