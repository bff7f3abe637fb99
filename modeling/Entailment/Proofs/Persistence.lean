import Entailment.Console
import Entailment.Proofs.Decoding
import Entailment.Proofs.JsonText
import Entailment.Proofs.Query
import Entailment.Proofs.Signature
import Mathlib.Data.List.Forall2

/-! What is saved can be loaded again, in the same session or in another one, unless a
formula is nested deeper than JSON may be. -/
namespace Entailment

open KnowledgeBase SessionM

namespace Console

/-- The base has come about in the session by calls on formulas whose names the table
had at the time. -/
def IsBuilt (kb : KnowledgeBase) (t : Session) : Prop := ∃ fs, Built ⟨t, kb, fs⟩

theorem IsBuilt.elsewhere {kb : KnowledgeBase} {t t' : Session} (h : IsBuilt kb t)
    (hle : t.symbols ≤ t'.symbols) : IsBuilt kb t' := by
  obtain ⟨fs, h⟩ := h
  exact ⟨fs, h.elsewhere hle⟩

/-- The computation leaves a base that has come about by calls, if it is given one. -/
def Maintains {α : Type} (kb : KnowledgeBase) (x : SessionM (α × KnowledgeBase)) : Prop :=
  ∀ t, IsBuilt kb t → IsBuilt (x t).1.2 (x t).2

/-- What one call does to the base, on a formula whose names the table has. -/
def Calls (kb : KnowledgeBase)
    (act : Formula → SessionM (Except ClausifyError String × KnowledgeBase)) : Prop :=
  ∀ (f : Formula) (t : Session), IsBuilt kb t → (∀ a ∈ f.symbols, t.symbols.Knows a) →
    IsBuilt (act f t).1.2 (act f t).2

variable (kb : KnowledgeBase)

theorem calls_assert : Calls kb (assert kb) := by
  rintro f t ⟨fs, h⟩ hknown
  exact ⟨_, h.call (.addAxiom f) hknown⟩

theorem calls_prove : Calls kb (prove kb) := by
  rintro f t ⟨fs, h⟩ hknown
  exact ⟨_, h.call (.prove f) hknown⟩

theorem calls_proveAndAdd : Calls kb (proveAndAdd kb) := by
  rintro f t ⟨fs, h⟩ hknown
  exact ⟨_, h.call (.addLemma f) hknown⟩

theorem calls_query : Calls kb (query kb) := by
  rintro f t ⟨fs, h⟩ hknown
  have hquery : IsBuilt (kb.query f t).1.2 (kb.query f t).2 := ⟨fs, h.call (.query f) hknown⟩
  unfold query
  rw [bind_apply]
  rcases hrun : kb.query f t with ⟨⟨result, kb'⟩, t'⟩
  rw [hrun] at hquery
  cases result with
  | error e => exact hquery
  | ok q => exact hquery.elsewhere (Query.grows_all q t')

/-- Reading the formula adds names, among them all that the call needs. -/
theorem maintains_withFormula (text : String)
    {act : Formula → SessionM (Except ClausifyError String × KnowledgeBase)}
    (hact : Calls kb act) : Maintains kb (withFormula text kb act) := by
  intro t h
  have hparsed : IsBuilt kb (naming (Formula.parse text) t).2 :=
    h.elsewhere (Formula.le_parse text t.symbols)
  unfold withFormula
  rw [if_apply]
  split
  · exact h
  · rw [bind_apply]
    cases hresult : (naming (Formula.parse text) t).1 with
    | error e => exact hparsed
    | ok f =>
      have hdone := hact f _ hparsed (Formula.wellFormed_of_parse hresult).known
      dsimp only
      rw [bind_apply]
      rcases hrun : act f (naming (Formula.parse text) t).2 with ⟨⟨result, kb'⟩, t'⟩
      rw [hrun] at hdone
      cases result <;> exact hdone

theorem maintains_execute (line : String) : Maintains kb (execute line kb) := by
  unfold execute
  split
  iterate 3 exact fun t h => h
  · exact maintains_withFormula kb _ (calls_assert kb)
  · exact maintains_withFormula kb _ (calls_prove kb)
  · exact maintains_withFormula kb _ (calls_proveAndAdd kb)
  · exact maintains_withFormula kb _ (calls_query kb)
  · exact fun t h => h

theorem maintains_executeAll (lines : List String) : Maintains kb (executeAll lines kb) := by
  induction lines generalizing kb with
  | nil => exact fun t h => h
  | cons line lines ih =>
    intro t h
    have hline := maintains_execute kb line t h
    rw [executeAll, bind_apply]
    rcases hrun : execute line kb t with ⟨⟨reply, kb'⟩, t'⟩
    rw [hrun] at hline
    exact ih kb' t' hline

end Console

/-! ## Text of state files -/

namespace Json

theorem textual_field {j : Json} (h : j.Textual) (name : String) :
    (ofFields [(name, j)]).Textual :=
  .object fun _ hf => List.mem_singleton.mp hf ▸ h

theorem textual_fields {j j' : Json} (h : j.Textual) (h' : j'.Textual) (name name' : String) :
    (ofFields [(name, j), (name', j')]).Textual := by
  refine .object fun f hf => ?_
  rcases List.mem_pair.mp hf with rfl | rfl
  · exact h
  · exact h'

theorem textual_pair {j j' : Json} (h : j.Textual) (h' : j'.Textual) :
    (array [j, j']).Textual := by
  refine .array fun i hi => ?_
  rcases List.mem_pair.mp hi with rfl | rfl
  · exact h
  · exact h'

end Json

theorem Term.textual_toJson (σ : Symbols) (t : Term) : (t.toJson σ).Textual := by
  induction t using rec_args with
  | var x => exact Json.textual_field (.string _) _
  | const c => exact Json.textual_field (.string _) _
  | app f args ih =>
    refine Json.textual_field (Json.textual_pair (.string _) (.array ?_)) _
    rw [toJsonAll_eq, List.forall_mem_map]
    exact ih

theorem Formula.textual_toJson (σ : Symbols) (f : Formula) : (f.toJson σ).Textual := by
  induction f with
  | rel r args =>
    refine Json.textual_field (Json.textual_pair (.string _) (.array ?_)) _
    rw [Term.toJsonAll_eq, List.forall_mem_map]
    exact fun t _ => t.textual_toJson σ
  | eq t u =>
    exact Json.textual_field (Json.textual_pair (t.textual_toJson σ) (u.textual_toJson σ)) _
  | not f ih => exact Json.textual_field ih _
  | and f g ihf ihg | or f g ihf ihg | imp f g ihf ihg | iff f g ihf ihg =>
    exact Json.textual_field (Json.textual_pair ihf ihg) _
  | all x f ih | ex x f ih => exact Json.textual_field (Json.textual_pair (.string _) ih) _

theorem StateFile.textual_toJson (σ : Symbols) (f : StateFile) : (f.toJson σ).Textual := by
  refine Json.textual_fields (.string _) (Json.textual_fields (.array ?_) (.string _) _ _) _ _
  rw [List.forall_mem_map]
  exact fun e _ => Json.textual_fields (.string _) (e.formula.textual_toJson σ) _ _

theorem StateFile.parse_render (σ : Symbols) (f : StateFile) :
    parse (f.render σ) = (ofJson Json.maxDepth (f.toJson σ)).run := by
  unfold parse render
  rw [Json.parse_renderIndented (textual_toJson σ f)]

/-- A text that is nested too deep is refused. -/
theorem StateFile.parse_of_depth_gt {σ : Symbols} {f : StateFile}
    (hvalid : f.savedAt.isValid = true) (h : Json.maxDepth < (f.toJson σ).depth) (t : Session) :
    (naming (parse (f.render σ)) t).1 = none := by
  rw [parse_render, fst_naming]
  exact (decodes_ofJson σ hvalid).fails _ h t.symbols

/-- Any other text is read with the symbols that the names have afterwards. -/
theorem StateFile.parse_of_depth_le {σ : Symbols} {f : StateFile}
    (hvalid : f.savedAt.isValid = true) (h : (f.toJson σ).depth ≤ Json.maxDepth) (t : Session) :
    ∃ t', naming (parse (f.render σ)) t =
        (some ⟨f.savedAt, f.snapshot.relabel fun a => t'.symbols.find (σ.name a)⟩, t') ∧
      t.symbols ≤ t'.symbols ∧ ∀ name ∈ f.snapshot.names σ, t'.symbols.contains name = true := by
  have hreads := (decodes_ofJson σ hvalid).reads _ h
  rw [parse_render]
  rcases hrun : naming (ofJson Json.maxDepth (f.toJson σ)).run t with ⟨result, t'⟩
  have hsymbols : ((ofJson Json.maxDepth (f.toJson σ)).run t.symbols).2 = t'.symbols := by
    rw [← symbols_naming, hrun]
  have hresult : ((ofJson Json.maxDepth (f.toJson σ)).run t.symbols).1 = result := by
    rw [← fst_naming, hrun]
  refine ⟨t', ?_, hsymbols ▸ hreads.le t.symbols, hsymbols ▸ hreads.known t.symbols⟩
  rw [← hresult, hreads.value t.symbols t'.symbols hsymbols.le]

namespace KnowledgeBase

variable {kb : KnowledgeBase} {σ : Symbols} {now : Timestamp}

/-- How deep the text of a saved base is nested. -/
def nesting (σ : Symbols) (now : Timestamp) (kb : KnowledgeBase) : Nat :=
  (StateFile.toJson σ ⟨now, kb.snapshot σ⟩).depth

/-- Four brackets stand around each formula. -/
theorem lt_nesting_iff {d : Nat} :
    d + 4 < kb.nesting σ now ↔ ∃ f ∈ kb.formulas, d < (f.toJson σ).depth := by
  have hentry (e : SnapshotEntry) : (e.toJson σ).depth = (e.formula.toJson σ).depth + 1 := by
    simp [SnapshotEntry.toJson, Provenance.toJson]
  have hdepth (s : Snapshot) : (StateFile.toJson σ ⟨now, s⟩).depth =
      Json.depthOfItems (s.entries.map (SnapshotEntry.toJson σ)) + 3 := by
    simp [StateFile.toJson, Snapshot.toJson]
  have hentries : (kb.snapshot σ).entries = kb.entries.map fun e => ⟨e.provenance, e.formula⟩ := rfl
  rw [nesting, hdepth, hentries, List.map_map, show d + 4 = d + 1 + 3 from rfl,
    Nat.add_lt_add_iff_right, Json.lt_depthOfItems]
  simp [hentry, formulas]

/-- A base whose text is nested too deep is saved, but not loaded again. -/
theorem load_of_nesting_gt (hnow : now.isValid = true) (h : Json.maxDepth < kb.nesting σ now)
    (limits : Limits) (t : Session) :
    (load (.text (kb.save σ now)) limits t).1 = .error .malformed := by
  have hparse : (naming (StateFile.parse (kb.save σ now)) t).1 = none :=
    StateFile.parse_of_depth_gt (f := ⟨now, kb.snapshot σ⟩) hnow h t
  unfold load
  dsimp only
  rw [bind_apply, hparse]
  rfl

theorem load_of_parse {limits : Limits} {t t₁ t₂ : Session} {text : String} {s : Snapshot}
    (hparse : naming (StateFile.parse text) t = (some ⟨now, s⟩, t₁))
    (hrestore : restore s limits t₁ = (.ok kb, t₂)) :
    load (.text text) limits t = (.ok (some kb), t₂) := by
  unfold load
  dsimp only
  rw [bind_apply, hparse]
  dsimp only
  rw [bind_apply, hrestore]
  rfl

/-- A saved base whose text is not nested too deep is loaded again, with the symbols that
the names have where it is loaded. -/
theorem exists_load_of_nesting_le (hes : ∀ e ∈ kb.entries, e.Converted σ)
    (hnow : now.isValid = true) (h : kb.nesting σ now ≤ Json.maxDepth)
    (limits : Limits) (t : Session) :
    ∃ kb' t' m, load (.text (kb.save σ now)) limits t = (.ok (some kb'), t') ∧
      kb'.limits = limits ∧ t.symbols ≤ t'.symbols ∧
      (∀ e ∈ kb.entries, σ.Namesakes t'.symbols m e.formula.symbols) ∧
      List.Forall₂ (Entry.Rebuilt m σ t'.symbols) kb.entries kb'.entries := by
  obtain ⟨t₁, hparse, hle, hcontains⟩ :=
    StateFile.parse_of_depth_le (f := ⟨now, kb.snapshot σ⟩) hnow h t
  have hm (e : Entry) (he : e ∈ kb.entries) : σ.Namesakes t₁.symbols
      (fun a => t₁.symbols.find (σ.name a)) e.formula.symbols := by
    refine Symbols.namesakes_find (hes e he).knows fun a ha => hcontains _ ?_
    exact List.mem_flatMap.mpr ⟨⟨e.provenance, e.formula⟩, List.mem_map_of_mem he,
      List.mem_map_of_mem ha⟩
  obtain ⟨kb', hok, hlimits, hall⟩ := exists_restore_rebuilt hes hm limits
  have hle' := grows_restore ((kb.snapshot σ).relabel fun a => t₁.symbols.find (σ.name a)) limits t₁
  rcases hrun : restore ((kb.snapshot σ).relabel fun a => t₁.symbols.find (σ.name a)) limits t₁
    with ⟨result, t₂⟩
  rw [hrun] at hok hall hle'
  subst hok
  exact ⟨kb', t₂, _, load_of_parse hparse hrun, hlimits, hle.trans hle',
    fun e he => (hm e he).later hle', hall⟩

/-- What any lines make of an empty base can be saved and loaded again, in whatever session
and under whatever limits, exactly if the text is not nested too deep. The new base has
the formulas of the old one for the same reasons in the same order. Their symbols are
those that the names have where the base is loaded, so that in the same session the
formulas are the very same ones. A text that is nested too deep is written all the
same, and refused when it is loaded. -/
theorem load_save {lines replies : List String} {limits : Limits} {t t₁ : Session}
    {kb : KnowledgeBase} (hlines : Console.executeAll lines (new limits) t = ((replies, kb), t₁))
    {now : Timestamp} (hnow : now.isValid = true) (limits' : Limits) (t₂ : Session) :
    (kb.nesting t₁.symbols now ≤ Json.maxDepth →
      ∃ kb' t₃ m, load (.text (kb.save t₁.symbols now)) limits' t₂ = (.ok (some kb'), t₃) ∧
        kb'.limits = limits' ∧
        List.Forall₂ (fun e e' : Entry => e'.provenance = e.provenance ∧
          e'.formula = e.formula.relabel m ∧
          t₁.symbols.Namesakes t₃.symbols m e.formula.symbols ∧
          (t₁.symbols ≤ t₂.symbols → e'.formula = e.formula)) kb.entries kb'.entries) ∧
    (Json.maxDepth < kb.nesting t₁.symbols now →
      (load (.text (kb.save t₁.symbols now)) limits' t₂).1 = .error .malformed) := by
  -- The lines are calls on formulas whose names the table has, so all entries can be added again.
  have hbuilt : Console.IsBuilt kb t₁ := by
    have h := Console.maintains_executeAll (new limits) lines t ⟨[], .start t limits⟩
    rwa [hlines] at h
  obtain ⟨fs, hbuilt⟩ := hbuilt
  refine ⟨fun hdepth => ?_, fun hdepth => load_of_nesting_gt hnow hdepth limits' t₂⟩
  obtain ⟨kb', t₃, m, hload, hlimits, hle, hm, hall⟩ :=
    exists_load_of_nesting_le hbuilt.isConverted hnow hdepth limits' t₂
  refine ⟨kb', t₃, m, hload, hlimits, ?_⟩
  refine ((List.forall₂_and_left _ _).mpr ⟨hm, hall⟩).imp fun e e' h => ?_
  refine ⟨h.2.provenance, h.2.formula, h.1, fun hsame => ?_⟩
  rw [h.2.formula, Formula.relabel_congr fun a ha => h.1.eq_of_le (hsame.trans hle) ha]
  exact Formula.relabel_id _

/-- The base after two axioms. -/
def personRun : (List String × KnowledgeBase) × Session :=
  Console.executeAll ["axiom man(marcus)", "axiom *x: (man(x) -> person(x))"] (new .default) .new

theorem formulas_personRun : personRun.1.2.formulas =
    [.rel ⟨0⟩ [.const ⟨1⟩], .all ⟨2⟩ (.imp (.rel ⟨0⟩ [.var ⟨2⟩]) (.rel ⟨3⟩ [.var ⟨2⟩]))] := by
  decide +kernel

/-- A time with a fraction of a second, an hour ahead of UTC. -/
def someTime : Timestamp := ⟨2026, 1, 2, 3, 4, 5, 678000000, 60⟩

theorem isValid_someTime : someTime.isValid = true := by
  decide

theorem nesting_personRun :
    personRun.1.2.nesting personRun.2.symbols someTime ≤ Json.maxDepth := by
  refine Nat.le_of_not_lt fun h => ?_
  obtain ⟨f, hf, hdepth⟩ := (lt_nesting_iff (d := 123)).mp h
  rw [formulas_personRun] at hf
  rcases List.mem_pair.mp hf with rfl | rfl
  · simp [Formula.toJson, Term.toJsonAll_eq, Term.toJson, Json.depthOfItems] at hdepth
  · simp [Formula.toJson, Term.toJsonAll_eq, Term.toJson, Json.depthOfItems] at hdepth

theorem load_save_personRun :
    someTime.isValid = true ∧
    personRun.1.2.nesting personRun.2.symbols someTime ≤ Json.maxDepth ∧
    ∃ kb' t₃ m, load (.text (personRun.1.2.save personRun.2.symbols someTime)) ⟨some 4, none⟩
        (.knowing ["x", "person"]) = (.ok (some kb'), t₃) ∧
      kb'.limits = ⟨some 4, none⟩ ∧
      List.Forall₂ (fun e e' : Entry => e'.provenance = e.provenance ∧
        e'.formula = e.formula.relabel m ∧
        personRun.2.symbols.Namesakes t₃.symbols m e.formula.symbols ∧
        (personRun.2.symbols ≤ (Session.knowing ["x", "person"]).symbols →
          e'.formula = e.formula)) personRun.1.2.entries kb'.entries := by
  -- Taken apart as a variable, so that the lines are not carried out here.
  have hlines : personRun = ((personRun.1.1, personRun.1.2), personRun.2) := by
    rcases personRun with ⟨⟨replies, kb⟩, t⟩
    rfl
  have hload := load_save hlines isValid_someTime ⟨some 4, none⟩ (.knowing ["x", "person"])
  exact ⟨isValid_someTime, nesting_personRun, hload.1 nesting_personRun⟩

theorem depth_repeat_not (σ : Symbols) (n : Nat) (f : Formula) :
    ((n.repeat .not f).toJson σ).depth = (f.toJson σ).depth + n := by
  induction n with
  | zero => rfl
  | succ n ih => rw [Nat.repeat, Formula.toJson, Json.depth_field, ih, Nat.add_assoc]

/-- The base after an axiom with 121 negations. -/
def deepRun : (List String × KnowledgeBase) × Session :=
  Console.executeAll ["axiom " ++ String.ofList (List.replicate 121 '!') ++ "p"] (new .default) .new

theorem formulas_deepRun : deepRun.1.2.formulas = [Nat.repeat .not 121 (.rel ⟨0⟩ [])] := by
  decide +kernel

/-- An axiom that is accepted and saved can keep the base from being loaded. -/
theorem load_deepRun : deepRun.1.2.formulas = [Nat.repeat .not 121 (.rel ⟨0⟩ [])] ∧
    (load (.text (deepRun.1.2.save deepRun.2.symbols someTime)) .default deepRun.2).1 =
      .error .malformed := by
  refine ⟨formulas_deepRun, load_of_nesting_gt isValid_someTime ?_ _ _⟩
  refine (lt_nesting_iff (d := 123)).mpr ⟨_, formulas_deepRun ▸ List.mem_singleton_self _, ?_⟩
  rw [depth_repeat_not]
  simp [Formula.toJson, Term.toJsonAll_eq, Json.depthOfItems]

end KnowledgeBase

end Entailment
