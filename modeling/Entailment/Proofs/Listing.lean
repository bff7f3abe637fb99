import Entailment.Console
import Entailment.Proofs.Restoration
import Mathlib.Data.List.Forall2

/-! What a listing shows: one entry on a line, with its number, with the word for what
brought it to the base, and with the text of its formula. -/
namespace Entailment

/-- The text of a term. Names stand for themselves, arguments in parentheses. -/
inductive Term.Displays (σ : Symbols) : Term → String → Prop
  | var {x} : Displays σ (.var x) (σ.name x)
  | const {c} : Displays σ (.const c) (σ.name c)
  | app {f args texts} (hargs : List.Forall₂ (Displays σ) args texts) :
    Displays σ (.app f args) (σ.name f ++ "(" ++ ", ".intercalate texts ++ ")")

/-- The text of a formula. Connectives of two formulas and quantifiers are in parentheses,
and a negated equation has a sign of its own. -/
inductive Formula.Displays (σ : Symbols) : Formula → String → Prop
  | proposition {r} : Displays σ (.rel r []) (σ.name r)
  | rel {r args texts} (hne : args ≠ []) (hargs : List.Forall₂ (Term.Displays σ) args texts) :
    Displays σ (.rel r args) (σ.name r ++ "(" ++ ", ".intercalate texts ++ ")")
  | eq {l r left right} (hl : l.Displays σ left) (hr : r.Displays σ right) :
    Displays σ (.eq l r) (left ++ " = " ++ right)
  | ne {l r left right} (hl : l.Displays σ left) (hr : r.Displays σ right) :
    Displays σ (.not (.eq l r)) (left ++ " ≠ " ++ right)
  | not {f text} (hne : ∀ l r, f ≠ .eq l r) (hf : Displays σ f text) :
    Displays σ (.not f) ("¬" ++ text)
  | and {f g left right} (hf : Displays σ f left) (hg : Displays σ g right) :
    Displays σ (.and f g) ("(" ++ left ++ " ∧ " ++ right ++ ")")
  | or {f g left right} (hf : Displays σ f left) (hg : Displays σ g right) :
    Displays σ (.or f g) ("(" ++ left ++ " ∨ " ++ right ++ ")")
  | imp {f g left right} (hf : Displays σ f left) (hg : Displays σ g right) :
    Displays σ (.imp f g) ("(" ++ left ++ " → " ++ right ++ ")")
  | iff {f g left right} (hf : Displays σ f left) (hg : Displays σ g right) :
    Displays σ (.iff f g) ("(" ++ left ++ " <=> " ++ right ++ ")")
  | all {x f text} (hf : Displays σ f text) :
    Displays σ (.all x f) ("(∀" ++ σ.name x ++ ": " ++ text ++ ")")
  | ex {x f text} (hf : Displays σ f text) :
    Displays σ (.ex x f) ("(∃" ++ σ.name x ++ ": " ++ text ++ ")")

namespace Term

variable {σ : Symbols}

theorem renderArgs_eq (ts : List Term) :
    renderArgs σ ts = ", ".intercalate (ts.map (render σ)) := by
  induction ts with
  | nil => rfl
  | cons t ts ih =>
    cases ts with
    | nil => simp [renderArgs]
    | cons u ts =>
      rw [renderArgs, ih, List.map_cons, List.map_cons, List.map_cons,
        String.intercalate_cons_cons]

theorem displays_render (σ : Symbols) (t : Term) : t.Displays σ (t.render σ) := by
  induction t using rec_args with
  | var x => exact .var
  | const c => exact .const
  | app f args ih =>
    rw [render, renderArgs_eq]
    apply Displays.app
    rw [List.forall₂_map_right_iff, List.forall₂_same]
    exact ih

end Term

theorem Formula.displays_render (σ : Symbols) (f : Formula) : f.Displays σ (f.render σ) := by
  induction f with
  | rel r args =>
    cases args with
    | nil => exact .proposition
    | cons t ts =>
      have hne := List.cons_ne_nil t ts
      rw [render.eq_2 σ r (t :: ts) hne, Term.renderArgs_eq]
      apply Displays.rel hne
      rw [List.forall₂_map_right_iff, List.forall₂_same]
      exact fun u _ => u.displays_render σ
  | eq l r => exact .eq (l.displays_render σ) (r.displays_render σ)
  | not f ih =>
    by_cases heq : ∃ l r, f = .eq l r
    · obtain ⟨l, r, rfl⟩ := heq
      exact .ne (l.displays_render σ) (r.displays_render σ)
    · have hne (l r : Term) : f ≠ .eq l r := fun h => heq ⟨l, r, h⟩
      rw [render_not hne]
      exact .not hne ih
  | and f g ihf ihg => exact .and ihf ihg
  | or f g ihf ihg => exact .or ihf ihg
  | imp f g ihf ihg => exact .imp ihf ihg
  | iff f g ihf ihg => exact .iff ihf ihg
  | all x f ih => exact .all ih
  | ex x f ih => exact .ex ih

namespace Console

/-- What a listing says of an entry. -/
inductive Row (σ : Symbols) : Entry → String → Prop
  | asserted {f cs text} (hf : f.Displays σ text) : Row σ ⟨f, cs, .asserted⟩ ("[axiom] " ++ text)
  | proven {f cs text} (hf : f.Displays σ text) : Row σ ⟨f, cs, .proven⟩ ("[lemma] " ++ text)

/-- The row behind its number, which ends at the third place or later. -/
inductive Numbered (n : Nat) (row : String) : String → Prop
  | intro {pad} (hpad : pad + (toString n).length = max 3 (toString n).length) :
    Numbered n row (String.ofList (List.replicate pad ' ') ++ toString n ++ ". " ++ row)

/-- The text has the rows, numbered from one, each on a line. -/
def Lists (rows : List String) (text : String) : Prop :=
  ∃ lines, List.Forall₂ (fun row line => Numbered (row.2 + 1) row.1 line) rows.zipIdx lines ∧
    text = "\n".intercalate lines

theorem row_render (σ : Symbols) (e : Entry) : Row σ e (e.render σ) := by
  obtain ⟨f, cs, p⟩ := e
  cases p with
  | asserted => exact .asserted (f.displays_render σ)
  | proven => exact .proven (f.displays_render σ)

theorem numbered_ordinal (n : Nat) (row : String) : Numbered n row (ordinal n ++ ". " ++ row) := by
  apply Numbered.intro
  omega

theorem lists_listing (σ : Symbols) (kb : KnowledgeBase) :
    Lists (kb.entries.map (Entry.render σ)) (listing σ kb) := by
  refine ⟨_, ?_, rfl⟩
  rw [List.zipIdx_map, List.forall₂_map_left_iff, List.forall₂_map_right_iff, List.forall₂_same]
  exact fun row _ => numbered_ordinal (row.2 + 1) (row.1.render σ)

end Console

end Entailment
