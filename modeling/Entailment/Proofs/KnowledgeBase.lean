import Entailment.KnowledgeBase.Basic
import Entailment.Proofs.Refutation

/-! Whole-run soundness of a knowledge base. Every model of the asserted formulas
can be changed on generated symbols so that all clauses of the base hold, and no
formula of a user mentions such a symbol. -/
namespace Entailment

universe u

open SessionM

/-- A symbol of the table whose name no parser accepts. -/
structure Symbols.Generated (σ : Symbols) (c : Symbol) : Prop where
  known : σ.Knows c
  name : '$' ∈ (σ.name c).toList

namespace Symbols

variable {σ τ : Symbols} {c : Symbol}

theorem Generated.mono (h : σ.Generated c) (hle : σ ≤ τ) : τ.Generated c :=
  ⟨h.known.mono hle, by rw [name_eq_of_le hle h.known]; exact h.name⟩

theorem SkolemBetween.generated (h : σ.SkolemBetween τ c) : τ.Generated c := by
  obtain ⟨n, hn⟩ := h.name
  refine ⟨h.known, ?_⟩
  rw [hn, String.toList_append]
  exact List.mem_append_left _ (by decide)

end Symbols

/-- All names are in the table, and none contains `$`. -/
def Formula.Plain (σ : Symbols) (f : Formula) : Prop :=
  ∀ a ∈ f.symbols, σ.Knows a ∧ '$' ∉ (σ.name a).toList

theorem Formula.Plain.trueIn_congr {σ : Symbols} {f : Formula} (h : f.Plain σ) {D : Type u}
    {I J : Interpretation D} (hIJ : I.AgreeOn (fun c => ¬ σ.Generated c) J) :
    f.TrueIn I ↔ f.TrueIn J :=
  Formula.trueIn_congr hIJ fun a ha hgenerated => (h a ha).2 hgenerated.name

theorem Formula.Plain.mono {σ τ : Symbols} {f : Formula} (h : f.Plain σ) (hle : σ ≤ τ) :
    f.Plain τ := by
  intro a ha
  rw [Symbols.name_eq_of_le hle (h a ha).1]
  exact ⟨(h a ha).1.mono hle, (h a ha).2⟩

namespace KnowledgeBase

variable {kb : KnowledgeBase} {f : Formula} {p : Provenance} {t : Session}

theorem symbols_add (f : Formula) (p : Provenance) (kb : KnowledgeBase) (t : Session) :
    (kb.add f p t).2.symbols = (kb.clausifier.clausify f t).2.symbols := by
  unfold add
  rw [bind_apply]
  rcases kb.clausifier.clausify f t with ⟨⟨result, k⟩, t⟩
  cases result with
  | error e => rfl
  | ok cs => rfl

/-- What adding can do: the conversion fails and the entries stay, or the new
entry holds the clauses of the conversion. -/
theorem add_cases (f : Formula) (p : Provenance) (kb : KnowledgeBase) (t : Session) :
    (∃ e, (kb.add f p t).1.1 = .error e ∧ (kb.add f p t).1.2.entries = kb.entries) ∨
    ∃ cs, (kb.clausifier.clausify f t).1.1 = .ok cs ∧ (kb.add f p t).1.1 = .ok () ∧
      (kb.add f p t).1.2.entries = kb.entries ++ [⟨f, cs, p⟩] := by
  unfold add
  rw [bind_apply]
  rcases kb.clausifier.clausify f t with ⟨⟨result, k⟩, t⟩
  cases result with
  | error e => exact .inl ⟨e, rfl, rfl⟩
  | ok cs => exact .inr ⟨cs, rfl, rfl, rfl⟩

theorem grows_add (f : Formula) (p : Provenance) (kb : KnowledgeBase) : Grows (kb.add f p) := by
  intro t
  rw [symbols_add]
  exact Clausifier.le_clausify f kb.clausifier t

theorem grows_prove (goal : Formula) (kb : KnowledgeBase) : Grows (kb.prove goal) :=
  (Entailment.grows_prove kb.clauses goal kb.clausifier kb.limits).bind fun _ => grows_pure _

theorem addLemma_of_entailed (h : (kb.prove f t).1.1 = .ok .entailed) :
    (kb.addLemma f t).1.2 = ((kb.prove f t).1.2.add f .proven (kb.prove f t).2).1.2 ∧
    (kb.addLemma f t).2 = ((kb.prove f t).1.2.add f .proven (kb.prove f t).2).2 := by
  unfold addLemma
  rw [bind_apply]
  rcases hprove : kb.prove f t with ⟨⟨result, kb'⟩, t'⟩
  rw [hprove] at h
  subst h
  dsimp only
  rw [bind_apply]
  rcases kb'.add f .proven t' with ⟨⟨added, kb''⟩, t''⟩
  cases added with
  | error e => exact ⟨rfl, rfl⟩
  | ok => exact ⟨rfl, rfl⟩

theorem addLemma_of_not_entailed (h : (kb.prove f t).1.1 ≠ .ok .entailed) :
    (kb.addLemma f t).1.1 ≠ .ok .entailed ∧ (kb.addLemma f t).1.2 = (kb.prove f t).1.2 ∧
    (kb.addLemma f t).2.symbols = (kb.prove f t).2.symbols := by
  unfold addLemma
  rw [bind_apply]
  rcases hprove : kb.prove f t with ⟨⟨result, kb'⟩, t'⟩
  rw [hprove] at h
  match result with
  | .error e => exact ⟨nofun, rfl, rfl⟩
  | .ok .entailed => exact absurd rfl h
  | .ok .notEntailed => exact ⟨nofun, rfl, rfl⟩
  | .ok .inconclusive => exact ⟨nofun, rfl, rfl⟩

theorem prove_of_addLemma (h : (kb.addLemma f t).1.1 = .ok .entailed) :
    (kb.prove f t).1.1 = .ok .entailed := by
  by_contra hnot
  exact (addLemma_of_not_entailed hnot).1 h

theorem prove_le_addLemma (f : Formula) (kb : KnowledgeBase) (t : Session) :
    (kb.prove f t).2.symbols ≤ (kb.addLemma f t).2.symbols := by
  by_cases h : (kb.prove f t).1.1 = .ok .entailed
  · rw [(addLemma_of_entailed h).2]
    exact grows_add f .proven _ _
  · rw [(addLemma_of_not_entailed h).2.2]

theorem grows_addLemma (f : Formula) (kb : KnowledgeBase) : Grows (kb.addLemma f) := by
  intro t
  exact le_trans (grows_prove f kb t) (prove_le_addLemma f kb t)

theorem grows_query (goal : Formula) (kb : KnowledgeBase) : Grows (kb.query goal) := by
  refine Grows.bind ?_ fun _ => grows_pure _
  have hname (xs : List Symbol) (body : Formula) (σ : Symbols) :
      σ ≤ (Formula.negatedWithAnswer xs body σ).2 := Symbols.le_intern Atom.answerName σ
  refine (grows_naming (hname _ _)).bind fun target =>
    (grows_clausify target kb.clausifier).bind fun a => ?_
  obtain ⟨result, k⟩ := a
  cases result with
  | error e => exact grows_pure _
  | ok cs =>
    exact (grows_note _).bind fun _ => (Saturation.grows_insertAll _ _).bind fun _ => grows_pure _

/-- A call on a knowledge base. -/
inductive Call where
  | addAxiom (f : Formula)
  | addLemma (f : Formula)
  | prove (f : Formula)
  | query (f : Formula)

/-- A base in its session, and the formulas that it has accepted as axioms. -/
structure Stage where
  session : Session
  base : KnowledgeBase
  asserted : List Formula

namespace Call

/-- The formula that the call is about. -/
def formula : Call → Formula
  | addAxiom f | addLemma f | prove f | query f => f

/-- The stage after a call. -/
def run : Call → Stage → Stage
  | addAxiom f, ⟨t, kb, fs⟩ =>
    ⟨(kb.addAxiom f t).2, (kb.addAxiom f t).1.2,
      match (kb.addAxiom f t).1.1 with
      | .ok () => fs ++ [f]
      | .error _ => fs⟩
  | addLemma f, ⟨t, kb, fs⟩ => ⟨(kb.addLemma f t).2, (kb.addLemma f t).1.2, fs⟩
  | prove f, ⟨t, kb, fs⟩ => ⟨(kb.prove f t).2, (kb.prove f t).1.2, fs⟩
  | query f, ⟨t, kb, fs⟩ => ⟨(kb.query f t).2, (kb.query f t).1.2, fs⟩

end Call

/-- Stages of a base that was started empty. Between the calls the session may be
used for other work, such as parsing or following up a query, which adds names. -/
inductive Reachable : Stage → Prop
  | start (t : Session) (limits : Limits) : Reachable ⟨t, new limits, []⟩
  | elsewhere {s : Stage} (h : Reachable s) {t : Session} (hle : s.session.symbols ≤ t.symbols) :
    Reachable { s with session := t }
  | call {s : Stage} (h : Reachable s) (c : Call) (hplain : c.formula.Plain s.session.symbols) :
    Reachable (c.run s)

/-- The interpretation satisfies all formulas. -/
def Models {D : Type u} (I : Interpretation D) (fs : List Formula) : Prop := ∀ f ∈ fs, f.TrueIn I

/-- The clauses of the entries hold in every model of `fs` up to generated symbols,
and the proven formulas hold in it as they are. -/
structure Sound (σ : Symbols) (entries : List Entry) (fs : List Formula) : Prop where
  known : ∀ e ∈ entries, Clause.Over σ.Knows e.clauses.clauses
  extension : ∀ (D : Type u) (I : Interpretation D), Models I fs → ∃ J : Interpretation D,
    I.AgreeOn (fun c => ¬ σ.Generated c) J ∧ ∀ e ∈ entries, ∀ c ∈ e.clauses.clauses, c.TrueIn J
  proven : ∀ e ∈ entries, e.provenance = .proven →
    ∀ (D : Type u) (I : Interpretation D), Models I fs → e.formula.TrueIn I

namespace Sound

variable {σ τ : Symbols} {entries : List Entry} {fs gs : List Formula} {k : Clausifier}

theorem nil (σ : Symbols) : Sound.{u} σ [] [] where
  known _ he := absurd he List.not_mem_nil
  extension _ I _ := ⟨I, .refl _ I, fun _ he => absurd he List.not_mem_nil⟩
  proven _ he := absurd he List.not_mem_nil

theorem mono (h : Sound.{u} σ entries fs) (hle : σ ≤ τ) : Sound.{u} τ entries fs where
  known e he c hc a ha := (h.known e he c hc a ha).mono hle
  extension D I hI := by
    obtain ⟨J, hJ, hall⟩ := h.extension D I hI
    exact ⟨J, hJ.mono fun c hc hgenerated => hc (hgenerated.mono hle), hall⟩
  proven := h.proven

/-- A formula with its clauses joins the entries if it holds in all models. -/
theorem append (h : Sound.{u} t.symbols entries fs) (hplain : f.Plain t.symbols)
    (hconvertible : k.Convertible f t.symbols) {cs : ClauseSet}
    (hok : (k.clausify f t).1.1 = .ok cs)
    (hgs : ∀ (D : Type u) (I : Interpretation D), Models I gs → Models I fs ∧ f.TrueIn I) :
    Sound.{u} (k.clausify f t).2.symbols (entries ++ [⟨f, cs, p⟩]) gs := by
  have hle := Clausifier.le_clausify f k t
  have hknown := Clausifier.knows_of_clausify hconvertible hok
  constructor
  · intro e he c hc a ha
    rcases List.mem_append.mp he with he | he
    · exact (h.known e he c hc a ha).mono hle
    · rw [List.mem_singleton.mp he] at hc
      exact hknown c hc a ha
  · intro D I hI
    obtain ⟨J, hJ, hold⟩ := h.extension D I (hgs D I hI).1
    have hf : f.TrueIn J := (hplain.trueIn_congr hJ).mp (hgs D I hI).2
    obtain ⟨K, hK, hnew⟩ := Clausifier.exists_trueIn_clausify hconvertible hok hf
    refine ⟨K, ?_, fun e he c hc => ?_⟩
    · exact (hJ.mono fun c hc hgenerated => hc (hgenerated.mono hle)).trans
        (hK.mono fun c hc hskolem => hc hskolem.generated)
    · rcases List.mem_append.mp he with he | he
      · have hagree := Formula.agreeOn_knows hK
        exact (Clause.trueIn_congr hagree (h.known e he c hc)).mp (hold e he c hc)
      · rw [List.mem_singleton.mp he] at hc
        exact hnew c hc
  · intro e he hp D I hI
    rcases List.mem_append.mp he with he | he
    · exact h.proven e he hp D I (hgs D I hI).1
    · rw [List.mem_singleton.mp he]
      exact (hgs D I hI).2

/-- A goal that is proven from the clauses holds in all models. -/
theorem trueIn_of_proved (h : Sound.{u} t.symbols kb.entries fs) (hplain : f.Plain t.symbols)
    (hsize : (kb.prove f t).2.symbols.size < UInt32.size)
    (hproved : (kb.prove f t).1.1 = .ok .entailed) {D : Type u} {I : Interpretation D}
    (hI : Models I fs) : f.TrueIn I := by
  obtain ⟨cs, hok, hunsat⟩ := unsatisfiable_of_prove hproved
  have hconvertible := convertible_of_prove (fun a ha => (hplain a ha).1) hsize hok
  obtain ⟨J, hJ, hall⟩ := h.extension D I hI
  have hbase : Clause.Over t.symbols.Knows kb.clauses := by
    intro c hc
    obtain ⟨e, he, hc⟩ := List.mem_flatMap.mp hc
    exact h.known e he c hc
  have hmodel : ∀ c ∈ kb.clauses, c.TrueIn J := by
    intro c hc
    obtain ⟨e, he, hc⟩ := List.mem_flatMap.mp hc
    exact hall e he c hc
  exact (hplain.trueIn_congr hJ).mpr
    (trueIn_of_unsatisfiable hbase hconvertible hok hunsat hmodel)

end Sound

theorem Call.le_run (c : Call) (s : Stage) : s.session.symbols ≤ (c.run s).session.symbols := by
  obtain ⟨t, kb, fs⟩ := s
  cases c with
  | addAxiom f => exact grows_add f .asserted kb t
  | addLemma f => exact grows_addLemma f kb t
  | prove f => exact grows_prove f kb t
  | query f => exact grows_query f kb t

namespace Stage

/-- The invariant of all stages. -/
def IsSound (s : Stage) : Prop := Sound.{u} s.session.symbols s.base.entries s.asserted

variable {s : Stage}

theorem IsSound.addAxiom (h : s.IsSound.{u}) {f : Formula} (hplain : f.Plain s.session.symbols)
    (hsize : ((Call.addAxiom f).run s).session.symbols.size < UInt32.size) :
    ((Call.addAxiom f).run s).IsSound.{u} := by
  obtain ⟨t, kb, fs⟩ := s
  have hsymbols := symbols_add f .asserted kb t
  change (kb.add f .asserted t).2.symbols.size < UInt32.size at hsize
  unfold IsSound Call.run KnowledgeBase.addAxiom
  rcases add_cases f .asserted kb t with ⟨e, hresult, hentries⟩ | ⟨cs, hok, hresult, hentries⟩
  · simp only [hresult, hentries]
    exact h.mono (grows_add f .asserted kb t)
  · simp only [hresult, hentries]
    rw [hsymbols] at hsize ⊢
    have hconvertible := Clausifier.convertible_of_ok (fun a ha => (hplain a ha).1) hok hsize
    refine h.append hplain hconvertible hok fun D I hI => ⟨fun g hg => ?_, ?_⟩
    · exact hI g (List.mem_append_left _ hg)
    · exact hI f (List.mem_append_right _ (List.mem_singleton_self f))

theorem IsSound.addLemma (h : s.IsSound.{u}) {f : Formula} (hplain : f.Plain s.session.symbols)
    (hsize : ((Call.addLemma f).run s).session.symbols.size < UInt32.size) :
    ((Call.addLemma f).run s).IsSound.{u} := by
  obtain ⟨t, kb, fs⟩ := s
  have hle := grows_prove f kb t
  have hproven : Sound.{u} (kb.prove f t).2.symbols (kb.prove f t).1.2.entries fs := h.mono hle
  change (kb.addLemma f t).2.symbols.size < UInt32.size at hsize
  unfold IsSound Call.run
  dsimp only
  by_cases hentailed : (kb.prove f t).1.1 = .ok .entailed
  · obtain ⟨hbase, hsession⟩ := addLemma_of_entailed hentailed
    rw [hsession, symbols_add] at hsize ⊢
    rw [hbase]
    rcases add_cases f .proven (kb.prove f t).1.2 (kb.prove f t).2 with
      ⟨e, -, hentries⟩ | ⟨cs, hok, -, hentries⟩
    · rw [hentries]
      exact hproven.mono (Clausifier.le_clausify f _ _)
    · have hsizeProve := (Symbols.size_le (Clausifier.le_clausify f _ _)).trans_lt hsize
      have hconvertible :=
        Clausifier.convertible_of_ok (fun a ha => ((hplain a ha).1).mono hle) hok hsize
      rw [hentries]
      refine hproven.append (hplain.mono hle) hconvertible hok fun D I hI => ⟨hI, ?_⟩
      exact h.trueIn_of_proved hplain hsizeProve hentailed hI
  · obtain ⟨-, hbase, hsymbols⟩ := addLemma_of_not_entailed hentailed
    rw [hbase, hsymbols]
    exact hproven

/-- What one call preserves. -/
theorem IsSound.run (h : s.IsSound.{u}) {c : Call} (hplain : c.formula.Plain s.session.symbols)
    (hsize : (c.run s).session.symbols.size < UInt32.size) : (c.run s).IsSound.{u} := by
  cases c with
  | addAxiom f => exact h.addAxiom hplain hsize
  | addLemma f => exact h.addLemma hplain hsize
  | prove f => exact h.mono (grows_prove f s.base s.session)
  | query f => exact h.mono (grows_query f s.base s.session)

end Stage

/-- What a whole run preserves. Names never leave the table, so it had room for
all of them at every stage before. -/
theorem Reachable.isSound {s : Stage} (h : Reachable s)
    (hsize : s.session.symbols.size < UInt32.size) : s.IsSound.{u} := by
  induction h with
  | start t limits => exact Sound.nil t.symbols
  | elsewhere _ hle ih => exact (ih ((Symbols.size_le hle).trans_lt hsize)).mono hle
  | call _ c hplain ih =>
    exact (ih ((Symbols.size_le (c.le_run _)).trans_lt hsize)).run hplain hsize

/-- Whatever a base finds entailed, in a call or in one of its lemmas, is true in
all models of the formulas that were asserted before. As in a single proof, names
must not have outgrown their 32-bit words. -/
theorem trueIn_of_reachable {s : Stage} (h : Reachable s) (D : Type u) (I : Interpretation D)
    (hI : Models I s.asserted) :
    (∀ g : Formula, g.Plain s.session.symbols →
      (s.base.prove g s.session).2.symbols.size < UInt32.size →
      (s.base.prove g s.session).1.1 = .ok .entailed → g.TrueIn I) ∧
    (∀ g : Formula, g.Plain s.session.symbols →
      (s.base.addLemma g s.session).2.symbols.size < UInt32.size →
      (s.base.addLemma g s.session).1.1 = .ok .entailed → g.TrueIn I) ∧
    (s.session.symbols.size < UInt32.size →
      ∀ e ∈ s.base.entries, e.provenance = .proven → e.formula.TrueIn I) := by
  have hprove (g : Formula) (hplain : g.Plain s.session.symbols)
      (hsize : (s.base.prove g s.session).2.symbols.size < UInt32.size)
      (hproved : (s.base.prove g s.session).1.1 = .ok .entailed) : g.TrueIn I := by
    have hsession := (Symbols.size_le (grows_prove g s.base s.session)).trans_lt hsize
    exact (h.isSound hsession).trueIn_of_proved hplain hsize hproved hI
  refine ⟨hprove, fun g hplain hsize hadded => ?_, fun hsize e he hproven => ?_⟩
  · have hle := prove_le_addLemma g s.base s.session
    exact hprove g hplain ((Symbols.size_le hle).trans_lt hsize) (prove_of_addLemma hadded)
  · exact (h.isSound hsize).proven e he hproven D I hI

/-- The stage at which `c = d` and `P(c)` have been asserted, where `P`, `c` and `d`
are the first names. -/
def replacementStage : Stage :=
  (Call.addAxiom (.rel ⟨0⟩ [.const ⟨1⟩])).run
    ((Call.addAxiom (.eq (.const ⟨1⟩) (.const ⟨2⟩))).run
      ⟨.knowing ["P", "c", "d"], new ⟨some 4, none⟩, []⟩)

theorem reachable_replacementStage : Reachable replacementStage := by
  refine .call (.call (.start _ _) _ ?_) _ ?_
  · unfold Formula.Plain
    decide
  · unfold Formula.Plain
    decide

/-- There `P(d)` is a lemma, which holds where both constants are zero. -/
theorem trueIn_of_reachable_replacementStage :
    (replacementStage.base.addLemma (.rel ⟨0⟩ [.const ⟨2⟩]) replacementStage.session).1.1 =
      .ok .entailed ∧
    Models zeroes replacementStage.asserted ∧
    (Formula.rel ⟨0⟩ [.const ⟨2⟩]).TrueIn zeroes := by
  have hadded : (replacementStage.base.addLemma (.rel ⟨0⟩ [.const ⟨2⟩])
      replacementStage.session).1.1 = .ok .entailed := by cbv
  have hsize : (replacementStage.base.addLemma (.rel ⟨0⟩ [.const ⟨2⟩])
      replacementStage.session).2.symbols.size < UInt32.size := by cbv
  have hplain : (Formula.rel ⟨0⟩ [.const ⟨2⟩]).Plain replacementStage.session.symbols := by
    unfold Formula.Plain
    decide
  have hmodels : Models zeroes replacementStage.asserted := by
    intro f hf v
    have hasserted : replacementStage.asserted =
        [.eq (.const ⟨1⟩) (.const ⟨2⟩), .rel ⟨0⟩ [.const ⟨1⟩]] := rfl
    rw [hasserted] at hf
    simp only [List.mem_cons, List.not_mem_nil, or_false] at hf
    rcases hf with rfl | rfl
    · rfl
    · rfl
  exact ⟨hadded, hmodels, (trueIn_of_reachable reachable_replacementStage Nat zeroes hmodels).2.1 _
    hplain hsize hadded⟩

end KnowledgeBase

end Entailment
