import Entailment.Proofs.Command
import Entailment.Proofs.Listing
import Entailment.Proofs.Query
import Entailment.Proofs.Signature

/-! What lines do to a base. A line adds one entry or none, and it adds one exactly if it
is accepted; so the base lists the accepted lines in their order. -/
namespace Entailment.Console

open KnowledgeBase SessionM

/-- The line brings an entry to the base: an axiom whose text is a formula that converts,
or a lemma whose text is a formula that is proven and converts. The entry holds the
formula and the clauses of this conversion. -/
inductive Accepts (kb : KnowledgeBase) (t : Session) (line : String) : Entry → Prop
  | asserted {text f t₁ cs} (hask : Asks "axiom" text line)
      (hparse : naming (Formula.parse text) t = (.ok f, t₁))
      (hconvert : (kb.clausifier.clausify f t₁).1.1 = .ok cs) :
    Accepts kb t line ⟨f, cs, .asserted⟩
  | proven {text f t₁ kb' t₂ cs} (hask : Asks "lemma" text line)
      (hparse : naming (Formula.parse text) t = (.ok f, t₁))
      (hprove : kb.prove f t₁ = ((.ok .entailed, kb'), t₂))
      (hconvert : (kb'.clausifier.clausify f t₂).1.1 = .ok cs) :
    Accepts kb t line ⟨f, cs, .proven⟩

/-- The entries that lines bring to a base, each with its row when it came. A line that
accepts nothing brings nothing. -/
inductive Transcript : List String → KnowledgeBase → Session → List (Entry × String) → Prop
  | nil {kb t} : Transcript [] kb t []
  | accepted {line lines kb t e row rows} (haccepts : Accepts kb t line e)
      (hrow : Row (execute line kb t).2.symbols e row)
      (hrest : Transcript lines (execute line kb t).1.2 (execute line kb t).2 rows) :
    Transcript (line :: lines) kb t ((e, row) :: rows)
  | ignored {line lines kb t rows} (hnone : ∀ e, ¬ Accepts kb t line e)
      (hrest : Transcript lines (execute line kb t).1.2 (execute line kb t).2 rows) :
    Transcript (line :: lines) kb t rows

variable {α : Type} {kb : KnowledgeBase} {t t₁ : Session} {text line : String} {f : Formula}
  {e e' : Entry} {act : Formula → SessionM (Except ClausifyError String × KnowledgeBase)}

theorem parse_of_isEmpty (h : text.isEmpty = true) (σ : Symbols) :
    (Formula.parse text σ).1 = .error .emptyFormula := by
  obtain rfl := String.isEmpty_iff.mp h
  rfl

theorem withFormula_of_ok (h : naming (Formula.parse text) t = (.ok f, t₁)) :
    (withFormula text kb act t).1.2 = (act f t₁).1.2 ∧ (withFormula text kb act t).2 = (act f t₁).2 := by
  have hne : ¬ text.isEmpty = true := by
    intro hempty
    have hresult : (Formula.parse text t.symbols).1 = .ok f := congrArg Prod.fst h
    rw [parse_of_isEmpty hempty] at hresult
    cases hresult
  unfold withFormula
  rw [if_apply, if_neg hne, bind_apply, h]
  dsimp only
  rw [bind_apply]
  rcases act f t₁ with ⟨⟨result, kb'⟩, t'⟩
  cases result with
  | error e => exact ⟨rfl, rfl⟩
  | ok reply => exact ⟨rfl, rfl⟩

theorem withFormula_of_error {e : ParseError} (h : naming (Formula.parse text) t = (.error e, t₁)) :
    (withFormula text kb act t).1.2 = kb ∧ t.symbols ≤ (withFormula text kb act t).2.symbols := by
  have hle : t.symbols ≤ t₁.symbols := by
    have hparse := Formula.le_parse text t.symbols
    rwa [← symbols_naming, h] at hparse
  unfold withFormula
  rw [if_apply]
  split
  · exact ⟨rfl, le_rfl⟩
  · rw [bind_apply, h]
    exact ⟨rfl, hle⟩

/-- Of what the computation may add to the base, it adds one entry, or there is nothing
to add and the entries stay as they are. -/
def Adds (kb : KnowledgeBase) (x : SessionM (α × KnowledgeBase)) (t : Session)
    (A : Entry → Prop) : Prop :=
  (∃ e, A e ∧ (x t).1.2.entries = kb.entries ++ [e]) ∨
    (∀ e, ¬ A e) ∧ (x t).1.2.entries = kb.entries

theorem adds_add (f : Formula) (p : Provenance) (kb : KnowledgeBase) (t : Session) :
    Adds kb (kb.add f p) t
      fun e => ∃ cs, (kb.clausifier.clausify f t).1.1 = .ok cs ∧ e = ⟨f, cs, p⟩ := by
  rcases add_cases f p kb t with ⟨err, herror, hentries⟩ | ⟨cs, hok, -, hentries⟩
  · refine .inr ⟨?_, hentries⟩
    rintro e ⟨cs, hok, rfl⟩
    rw [(add_of_ok hok p).1] at herror
    cases herror
  · exact .inl ⟨_, ⟨cs, hok, rfl⟩, hentries⟩

theorem adds_addLemma (f : Formula) (kb : KnowledgeBase) (t : Session) :
    Adds kb (kb.addLemma f) t fun e => ∃ kb' t' cs, kb.prove f t = ((.ok .entailed, kb'), t') ∧
      (kb'.clausifier.clausify f t').1.1 = .ok cs ∧ e = ⟨f, cs, .proven⟩ := by
  have hentries : (kb.prove f t).1.2.entries = kb.entries := rfl
  by_cases hentailed : (kb.prove f t).1.1 = .ok .entailed
  · have hadds := adds_add f .proven (kb.prove f t).1.2 (kb.prove f t).2
    unfold Adds at hadds ⊢
    rw [(addLemma_of_entailed hentailed).1]
    rw [hentries] at hadds
    rcases hprove : kb.prove f t with ⟨⟨result, kb'⟩, t'⟩
    rw [hprove] at hadds hentailed
    subst hentailed
    rcases hadds with ⟨e, ⟨cs, hok, he⟩, hadded⟩ | ⟨hnone, hkept⟩
    · exact .inl ⟨e, ⟨kb', t', cs, rfl, hok, he⟩, hadded⟩
    · refine .inr ⟨?_, hkept⟩
      rintro e ⟨_, _, cs, ⟨⟩, hok, he⟩
      exact hnone e ⟨cs, hok, he⟩
  · refine .inr ⟨?_, ?_⟩
    · rintro e ⟨kb', t', cs, hprove, -⟩
      exact hentailed (by rw [hprove])
    · rw [(addLemma_of_not_entailed hentailed).2.1, hentries]

theorem entries_prove (kb : KnowledgeBase) (f : Formula) (t : Session) :
    (prove kb f t).1.2.entries = kb.entries := rfl

theorem entries_query (kb : KnowledgeBase) (f : Formula) (t : Session) :
    (query kb f t).1.2.entries = kb.entries := by
  have hentries : (kb.query f t).1.2.entries = kb.entries := rfl
  unfold query
  rw [bind_apply]
  rcases hrun : kb.query f t with ⟨⟨result, kb'⟩, t'⟩
  rw [hrun] at hentries
  cases result with
  | error e => exact hentries
  | ok q => exact hentries

/-- A command on a formula adds what it adds once the text has been read. -/
theorem adds_withFormula {A : Formula → Session → Entry → Prop}
    (hact : ∀ f t, Adds kb (act f) t (A f t)) (text : String) (t : Session) :
    Adds kb (withFormula text kb act) t
      fun e => ∃ f t₁, naming (Formula.parse text) t = (.ok f, t₁) ∧ A f t₁ e := by
  rcases hparse : naming (Formula.parse text) t with ⟨_ | f, t₁⟩
  · refine .inr ⟨?_, by rw [(withFormula_of_error hparse).1]⟩
    rintro e ⟨f, t', ⟨⟩, -⟩
  · have hadds := hact f t₁
    unfold Adds at hadds ⊢
    rw [(withFormula_of_ok hparse).1]
    rcases hadds with ⟨e, he, hadded⟩ | ⟨hnone, hkept⟩
    · exact .inl ⟨e, ⟨f, t₁, rfl, he⟩, hadded⟩
    · refine .inr ⟨?_, hkept⟩
      rintro e ⟨_, _, ⟨⟩, he⟩
      exact hnone e he

theorem entries_withFormula (hact : ∀ f t, (act f t).1.2.entries = kb.entries) (text : String)
    (t : Session) : (withFormula text kb act t).1.2.entries = kb.entries := by
  rcases hparse : naming (Formula.parse text) t with ⟨_ | f, t₁⟩
  · rw [(withFormula_of_error hparse).1]
  · rw [(withFormula_of_ok hparse).1]
    exact hact f t₁

theorem Adds.congr {x : SessionM (α × KnowledgeBase)} {A B : Entry → Prop} (h : Adds kb x t A)
    (hAB : ∀ e, A e ↔ B e) : Adds kb x t B := by
  rwa [Adds, ← funext fun e => propext (hAB e)]

theorem adds_of_eq {x : SessionM (α × KnowledgeBase)} {A : Entry → Prop} (hA : ∀ e, ¬ A e)
    (h : (x t).1.2.entries = kb.entries) : Adds kb x t A :=
  .inr ⟨hA, h⟩

theorem Accepts.unique (h : Accepts kb t line e) (h' : Accepts kb t line e') : e = e' := by
  cases h with
  | asserted hask hparse hconvert =>
    cases h' with
    | asserted hask' hparse' hconvert' =>
      rw [asks_axiom_iff] at hask hask'
      cases hask.symm.trans hask'
      cases hparse.symm.trans hparse'
      cases hconvert.symm.trans hconvert'
      rfl
    | proven hask' _ _ _ =>
      cases (asks_axiom_iff.mp hask).symm.trans (asks_lemma_iff.mp hask')
  | proven hask hparse hprove hconvert =>
    cases h' with
    | asserted hask' _ _ =>
      cases (asks_lemma_iff.mp hask).symm.trans (asks_axiom_iff.mp hask')
    | proven hask' hparse' hprove' hconvert' =>
      rw [asks_lemma_iff] at hask hask'
      cases hask.symm.trans hask'
      cases hparse.symm.trans hparse'
      cases hprove.symm.trans hprove'
      cases hconvert.symm.trans hconvert'
      rfl

theorem not_accepts (h : ∀ text, parseCommand line ≠ .assert text)
    (h' : ∀ text, parseCommand line ≠ .proveAndAdd text) (e : Entry) : ¬ Accepts kb t line e := by
  rintro (⟨hask, -, -⟩ | ⟨hask, -, -, -⟩)
  · exact h _ (asks_axiom_iff.mp hask)
  · exact h' _ (asks_lemma_iff.mp hask)

/-- What one line does. -/
theorem adds_execute (line : String) (kb : KnowledgeBase) (t : Session) :
    Adds kb (execute line kb) t (Accepts kb t line) := by
  unfold execute
  rcases hcommand : parseCommand line with _ | _ | _ | text | text | text | text | verb
  case assert =>
    refine (adds_withFormula (fun f => adds_add f .asserted kb) text t).congr fun e => ⟨?_, ?_⟩
    · rintro ⟨f, t₁, hparse, cs, hconvert, rfl⟩
      exact .asserted (asks_axiom_iff.mpr hcommand) hparse hconvert
    · rintro (⟨hask, hparse, hconvert⟩ | ⟨hask, -, -, -⟩)
      · cases hcommand.symm.trans (asks_axiom_iff.mp hask)
        exact ⟨_, _, hparse, _, hconvert, rfl⟩
      · cases hcommand.symm.trans (asks_lemma_iff.mp hask)
  case proveAndAdd =>
    refine (adds_withFormula (fun f => adds_addLemma f kb) text t).congr fun e => ⟨?_, ?_⟩
    · rintro ⟨f, t₁, hparse, kb', t₂, cs, hprove, hconvert, rfl⟩
      exact .proven (asks_lemma_iff.mpr hcommand) hparse hprove hconvert
    · rintro (⟨hask, -, -⟩ | ⟨hask, hparse, hprove, hconvert⟩)
      · cases hcommand.symm.trans (asks_axiom_iff.mp hask)
      · cases hcommand.symm.trans (asks_lemma_iff.mp hask)
        exact ⟨_, _, hparse, _, _, _, hprove, hconvert, rfl⟩
  -- The other commands accept nothing, so that they must keep the entries.
  all_goals
    refine adds_of_eq (not_accepts (by simp [hcommand]) (by simp [hcommand])) ?_
  case prove => exact entries_withFormula (entries_prove kb) text t
  case query => exact entries_withFormula (entries_query kb) text t
  all_goals rfl

theorem execute_of_list {argument : String} (h : Asks "list" argument line) (kb : KnowledgeBase)
    (t : Session) : (execute line kb t).1.1 = listing t.symbols kb := by
  unfold execute
  rw [parseCommand_eq_iff.mpr (.list h)]
  rfl

section Names

theorem grows_withFormula (hact : ∀ f, Grows (act f)) (text : String) :
    Grows (withFormula text kb act) := by
  intro t
  have hle := Formula.le_parse text t.symbols
  rw [← symbols_naming] at hle
  rcases hparse : naming (Formula.parse text) t with ⟨_ | f, t₁⟩
  · exact (withFormula_of_error hparse).2
  · rw [(withFormula_of_ok hparse).2]
    rw [hparse] at hle
    exact le_trans hle (hact f t₁)

theorem grows_assert (f : Formula) : Grows (assert kb f) :=
  (grows_add f .asserted kb).bind fun _ => grows_pure _

theorem grows_proofReply (f : Formula) : Grows (prove kb f) :=
  (KnowledgeBase.grows_prove f kb).bind fun _ => grows_pure _

theorem grows_proveAndAdd (f : Formula) : Grows (proveAndAdd kb f) :=
  (grows_addLemma f kb).bind fun _ => grows_pure _

theorem grows_queryReply (f : Formula) : Grows (query kb f) := by
  refine (KnowledgeBase.grows_query f kb).bind fun r => ?_
  rcases r with ⟨_ | q, kb'⟩
  · exact grows_pure _
  · exact (Query.grows_all q).bind fun _ => grows_get.bind fun _ => grows_pure _

theorem grows_execute (line : String) (kb : KnowledgeBase) : Grows (execute line kb) := by
  unfold execute
  cases parseCommand line with
  | empty => exact grows_pure _
  | help => exact grows_pure _
  | list => exact grows_get.bind fun _ => grows_pure _
  | assert text => exact grows_withFormula grows_assert text
  | prove text =>
    exact grows_withFormula grows_proofReply text
  | proveAndAdd text => exact grows_withFormula grows_proveAndAdd text
  | query text => exact grows_withFormula grows_queryReply text
  | unknown verb => exact grows_pure _

theorem grows_executeAll (lines : List String) (kb : KnowledgeBase) :
    Grows (executeAll lines kb) := by
  induction lines generalizing kb with
  | nil => exact grows_pure _
  | cons line lines ih =>
    exact (grows_execute line kb).bind fun r => (ih r.2).bind fun _ => grows_pure _

theorem knows_withFormula (hparse : naming (Formula.parse text) t = (.ok f, t₁))
    (hact : Grows (act f)) :
    ∀ a ∈ f.symbols, (withFormula text kb act t).2.symbols.Knows a := by
  intro a ha
  have hknows := (Formula.wellFormed_of_parse (congrArg Prod.fst hparse)).known a ha
  rw [← symbols_naming, hparse] at hknows
  rw [(withFormula_of_ok hparse).2]
  exact hknows.mono (hact t₁)

theorem Accepts.knows (h : Accepts kb t line e) :
    ∀ a ∈ e.formula.symbols, (execute line kb t).2.symbols.Knows a := by
  unfold execute
  cases h with
  | asserted hask hparse hconvert =>
    rw [asks_axiom_iff.mp hask]
    exact knows_withFormula hparse (grows_assert _)
  | proven hask hparse hprove hconvert =>
    rw [asks_lemma_iff.mp hask]
    exact knows_withFormula hparse (grows_proveAndAdd _)

/-- Names that come later do not change what an entry looks like. -/
theorem render_of_le {σ τ : Symbols} (hle : σ ≤ τ) (h : ∀ a ∈ e.formula.symbols, σ.Knows a) :
    e.render τ = e.render σ := by
  have hrender := Formula.render_relabel (m := id) fun a ha => Symbols.name_eq_of_le hle (h a ha)
  rw [Formula.relabel_id] at hrender
  rw [Entry.render, Entry.render, hrender]

end Names

theorem executeAll_cons (line : String) (lines : List String) (kb : KnowledgeBase) (t : Session) :
    (executeAll (line :: lines) kb t).1.2 =
        (executeAll lines (execute line kb t).1.2 (execute line kb t).2).1.2 ∧
      (executeAll (line :: lines) kb t).2 =
        (executeAll lines (execute line kb t).1.2 (execute line kb t).2).2 := by
  rw [executeAll, bind_apply]
  rcases execute line kb t with ⟨⟨reply, kb'⟩, t'⟩
  dsimp only
  rw [bind_apply]
  rcases executeAll lines kb' t' with ⟨⟨replies, kb''⟩, t''⟩
  exact ⟨rfl, rfl⟩

/-- Lines leave behind the entries of their transcript, and later lines keep their texts. -/
theorem exists_transcript (lines : List String) (kb : KnowledgeBase) (t : Session) :
    ∃ rows, Transcript lines kb t rows ∧
      (executeAll lines kb t).1.2.entries = kb.entries ++ rows.map Prod.fst ∧
      rows.map Prod.snd =
        rows.map fun row => row.1.render (executeAll lines kb t).2.symbols := by
  induction lines generalizing kb t with
  | nil => exact ⟨[], .nil, (List.append_nil _).symm, rfl⟩
  | cons line lines ih =>
    obtain ⟨rows, hrows, hentries, htexts⟩ := ih (execute line kb t).1.2 (execute line kb t).2
    rw [(executeAll_cons line lines kb t).1, (executeAll_cons line lines kb t).2, hentries]
    rcases adds_execute line kb t with ⟨e, haccepts, hadded⟩ | ⟨hnone, hkept⟩
    · refine ⟨_, .accepted haccepts (row_render _ e) hrows, ?_, ?_⟩
      · rw [hadded, List.append_assoc, List.map_cons, List.singleton_append]
      · rw [List.map_cons, List.map_cons, htexts,
          render_of_le (grows_executeAll lines _ _) haccepts.knows]
    · exact ⟨rows, .ignored hnone hrows, by rw [hkept], htexts⟩

/-- A base grows by the lines that it accepts: one line adds one entry behind the others or
leaves them as they are, and it adds an entry exactly if it accepts this entry. After any
lines, one that asks for a listing gets numbered rows, first for what was there and then for
the accepted entries in their order, each as it looked when it came. -/
theorem entries_execute (kb : KnowledgeBase) (t : Session) :
    (∀ line,
      ((execute line kb t).1.2.entries = kb.entries ∨
        ∃ e, (execute line kb t).1.2.entries = kb.entries ++ [e]) ∧
      ∀ e, (execute line kb t).1.2.entries = kb.entries ++ [e] ↔ Accepts kb t line e) ∧
    ∀ lines, ∃ rows, Transcript lines kb t rows ∧
      (executeAll lines kb t).1.2.entries = kb.entries ++ rows.map Prod.fst ∧
      ∀ line argument, Asks "list" argument line →
        ∃ earlier, List.Forall₂ (Row (executeAll lines kb t).2.symbols) kb.entries earlier ∧
          Lists (earlier ++ rows.map Prod.snd)
            (execute line (executeAll lines kb t).1.2 (executeAll lines kb t).2).1.1 := by
  refine ⟨fun line => ?_, fun lines => ?_⟩
  · rcases adds_execute line kb t with ⟨e, haccepts, hadded⟩ | ⟨hnone, hkept⟩
    · refine ⟨.inr ⟨e, hadded⟩, fun e' => ⟨fun hadded' => ?_, fun haccepts' => ?_⟩⟩
      · have he : [e] = [e'] := List.append_cancel_left (hadded.symm.trans hadded')
        rwa [← List.singleton_inj.mp he]
      · rw [haccepts'.unique haccepts]
        exact hadded
    · refine ⟨.inl hkept, fun e => ⟨fun hadded => ?_, fun haccepts => absurd haccepts (hnone e)⟩⟩
      rw [hkept] at hadded
      exact absurd (List.self_eq_append_right.mp hadded) (List.cons_ne_nil e [])
  · obtain ⟨rows, hrows, hentries, htexts⟩ := exists_transcript lines kb t
    refine ⟨rows, hrows, hentries, fun line argument hask => ?_⟩
    refine ⟨kb.entries.map (Entry.render (executeAll lines kb t).2.symbols), ?_, ?_⟩
    · rw [List.forall₂_map_right_iff, List.forall₂_same]
      exact fun e _ => row_render _ e
    · have hlists := lists_listing (executeAll lines kb t).2.symbols (executeAll lines kb t).1.2
      rw [hentries, List.map_append, List.map_map] at hlists
      rw [execute_of_list hask, htexts]
      exact hlists

/-- An axiom, an axiom without a formula, a lemma that does not follow, and one that does. -/
def sampleLines : List String := ["  Axiom p(a)  # a fact", "axiom", "lemma p(b)", "LEMMA p(a)"]

def sampleFact : Formula := .rel ⟨0⟩ [.const ⟨1⟩]

theorem entries_execute_sample :
    Asks "list" "" "List # all" ∧
    ∃ rows, Transcript sampleLines (.new .default) (.knowing ["p", "a", "b"]) rows ∧
      rows.map (fun row => (row.1.formula, row.1.provenance)) =
        [(sampleFact, .asserted), (sampleFact, .proven)] ∧
      Lists (rows.map Prod.snd) "  1. [axiom] p(a)\n  2. [lemma] p(a)" := by
  have hask : Asks "list" "" "List # all" := by
    refine ⟨"List".toList, (spells_iff (by decide)).mpr (by decide), "List ".toList, "# all".toList,
      by decide, by decide, by simp, ?_⟩
    exact @Parts.verb [] "List".toList [' '] (by simp [Text.Blanks]) (by simp)
      (by simp [Text.isBlank, Text.blankRanges])
      (by simp [Text.Blanks, Text.isBlank, Text.blankRanges])
  obtain ⟨rows, hrows, hentries, hlist⟩ :=
    (entries_execute (.new .default) (.knowing ["p", "a", "b"])).2 sampleLines
  obtain ⟨earlier, hearlier, hlists⟩ := hlist _ _ hask
  obtain rfl : earlier = [] := List.forall₂_nil_left_iff.mp hearlier
  generalize hrun : executeAll sampleLines (.new .default) (.knowing ["p", "a", "b"]) = run
    at hentries hlists
  have hshown : (run.1.2.entries.map (fun e => (e.formula, e.provenance)),
      (execute "List # all" run.1.2 run.2).1.1) =
        ([(sampleFact, .asserted), (sampleFact, .proven)],
          "  1. [axiom] p(a)\n  2. [lemma] p(a)") := by
    subst hrun
    cbv
  obtain ⟨hkinds, hreply⟩ := Prod.mk.inj hshown
  rw [hentries, show (KnowledgeBase.new .default).entries = [] from rfl, List.nil_append,
    List.map_map] at hkinds
  rw [hreply, List.nil_append] at hlists
  exact ⟨hask, rows, hrows, hkinds, hlists⟩

end Entailment.Console
