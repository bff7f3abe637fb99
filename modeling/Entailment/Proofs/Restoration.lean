import Entailment.KnowledgeBase.Snapshot
import Entailment.Proofs.Alignment
import Entailment.Proofs.KnowledgeBase

/-! A base can be rebuilt from its snapshot. Every entry holds the clauses of some
conversion of its formula, and a formula that was converted once converts again
to the same clauses up to the names that are made. -/
namespace Entailment

open SessionM

section Text

variable {m : Symbol → Symbol} {σ σ' : Symbols}

theorem Term.renderArgs_map {g : Term → Term} {ts : List Term}
    (h : ∀ t ∈ ts, (g t).render σ' = t.render σ) :
    renderArgs σ' (ts.map g) = renderArgs σ ts := by
  induction ts with
  | nil => rfl
  | cons t ts ih =>
    have ht := h t List.mem_cons_self
    cases ts with
    | nil => exact ht
    | cons u us =>
      have hrest := ih fun v hv => h v (List.mem_cons_of_mem t hv)
      rw [List.map_cons] at hrest
      rw [List.map_cons, List.map_cons, renderArgs, renderArgs, ht, hrest]

theorem Term.render_relabel {t : Term} (h : ∀ a ∈ t.symbols, σ'.name (m a) = σ.name a) :
    (t.relabel m).render σ' = t.render σ := by
  induction t using rec_args with
  | var x => exact h x (mem_symbols_var.mpr rfl)
  | const c => exact h c (mem_symbols_const.mpr rfl)
  | app f args ih =>
    have hargs := renderArgs_map fun t ht =>
      ih t ht fun a ha => h a (mem_symbols_app.mpr (.inr ⟨t, ht, ha⟩))
    rw [relabel_app, render, render, hargs, h f (mem_symbols_app.mpr (.inl rfl))]

namespace Formula

theorem render_rel (r : Symbol) (args : List Term) : (rel r args).render σ =
    if args.isEmpty then σ.name r else σ.name r ++ "(" ++ Term.renderArgs σ args ++ ")" := by
  cases args <;> rfl

theorem render_not {f : Formula} (h : ∀ l r, f ≠ .eq l r) : (not f).render σ = "¬" ++ f.render σ := by
  cases f with
  | eq l r => exact absurd rfl (h l r)
  | _ => rfl

/-- The text of a formula shows nothing of its symbols but their names. -/
theorem render_relabel {f : Formula} (h : ∀ a ∈ f.symbols, σ'.name (m a) = σ.name a) :
    (f.relabel m).render σ' = f.render σ := by
  induction f with
  | rel r args =>
    have hargs := Term.renderArgs_map fun t ht => Term.render_relabel (t := t) fun a ha =>
      h a (List.mem_cons_of_mem r (Term.mem_symbolsAll.mpr ⟨t, ht, ha⟩))
    rw [relabel, render_rel, render_rel, hargs, h r List.mem_cons_self, List.isEmpty_map]
  | eq l r =>
    rw [relabel, render, render, Term.render_relabel fun a ha => h a (List.mem_append_left _ ha),
      Term.render_relabel fun a ha => h a (List.mem_append_right _ ha)]
  | not f ih =>
    by_cases hf : ∃ l r, f = .eq l r
    · obtain ⟨l, r, rfl⟩ := hf
      simp only [relabel, render]
      rw [Term.render_relabel fun a ha => h a (List.mem_append_left _ ha),
        Term.render_relabel fun a ha => h a (List.mem_append_right _ ha)]
    · rw [relabel, render_not, render_not, ih h]
      · exact fun l r hlr => hf ⟨l, r, hlr⟩
      · intro l r hlr
        cases f <;> cases hlr
        exact hf ⟨_, _, rfl⟩
  | and f g ihf ihg | or f g ihf ihg | imp f g ihf ihg | iff f g ihf ihg =>
    rw [relabel, render, render, ihf fun a ha => h a (List.mem_append_left _ ha),
      ihg fun a ha => h a (List.mem_append_right _ ha)]
  | all x f ih | ex x f ih =>
    rw [relabel, render, render, h x List.mem_cons_self,
      ih fun a ha => h a (List.mem_cons_of_mem x ha)]

end Formula

/-- The entries with `m a` in the place of every symbol `a`, under the same seal. -/
def Snapshot.relabel (m : Symbol → Symbol) (s : Snapshot) : Snapshot :=
  ⟨s.entries.map fun e => ⟨e.provenance, e.formula.relabel m⟩, s.sealText⟩

theorem Snapshot.relabel_id (s : Snapshot) : s.relabel id = s := by
  unfold relabel
  simp only [Formula.relabel_id, List.map_id']

theorem Snapshot.info_relabel {s : Snapshot}
    (h : ∀ e ∈ s.entries, ∀ a ∈ e.formula.symbols, σ'.name (m a) = σ.name a) :
    (s.relabel m).info σ' = s.info σ := by
  unfold info relabel
  congr 3
  rw [List.map_map]
  apply List.map_congr_left
  intro e he
  rw [Function.comp_apply, Formula.render_relabel (h e he)]

end Text

namespace Snapshot

variable {σ : Symbols}

theorem isIntact_mk {es : List SnapshotEntry} {text : String} :
    isIntact σ ⟨es, text⟩ = true ↔ Seal.ofText (info σ ⟨es, ""⟩) = text := beq_iff_eq

theorem info_reseal (σ : Symbols) (s : Snapshot) : (s.reseal σ).info σ = s.info σ := rfl

theorem sealText_reseal (σ : Symbols) (s : Snapshot) :
    (s.reseal σ).sealText = Seal.ofText (s.info σ) := rfl

theorem info_congr {s s' : Snapshot} (h : s.entries = s'.entries) : s.info σ = s'.info σ := by
  unfold info
  rw [h]

end Snapshot

theorem KnowledgeBase.sealText_snapshot (kb : KnowledgeBase) (σ : Symbols) :
    (kb.snapshot σ).sealText = Seal.ofText ((kb.snapshot σ).info σ) := by
  rw [snapshot, Snapshot.info_reseal, Snapshot.sealText_reseal]

namespace Entry

/-- The clauses of the entry are those of its formula, converted while the table of
names was no larger than `σ`. -/
def Converted (σ : Symbols) (e : Entry) : Prop :=
  ∃ (k : Clausifier) (t : Session), (∀ a ∈ e.formula.symbols, t.symbols.Knows a) ∧
    (k.clausify e.formula t).1.1 = .ok e.clauses ∧ (k.clausify e.formula t).2.symbols ≤ σ

theorem Converted.mono {σ τ : Symbols} {e : Entry} (h : e.Converted σ) (hle : σ ≤ τ) :
    e.Converted τ := by
  obtain ⟨k, t, hnames, hok, hbefore⟩ := h
  exact ⟨k, t, hnames, hok, hbefore.trans hle⟩

theorem Converted.knows {σ : Symbols} {e : Entry} (h : e.Converted σ) :
    ∀ a ∈ e.formula.symbols, σ.Knows a := by
  obtain ⟨k, t, hnames, -, hbefore⟩ := h
  exact fun a ha => (hnames a ha).mono ((Clausifier.le_clausify _ k t).trans hbefore)

/-- The second entry holds the formula of the first one with its symbols replaced by
`m`, for the same reason. Its clauses are those of the first one up to generated
symbols, as long as both tables of names are small enough. -/
structure Rebuilt (m : Symbol → Symbol) (σ τ : Symbols) (e e' : Entry) : Prop where
  formula : e'.formula = e.formula.relabel m
  provenance : e'.provenance = e.provenance
  clauses : σ.size < UInt32.size → τ.size < UInt32.size →
    ∃ π : Symbol → Symbol, Function.Injective π ∧ (∀ a ∈ e.formula.symbols, π a = m a) ∧
      e'.clauses.clauses = e.clauses.clauses.map (Clause.relabel π)

theorem map_of_rebuilt {m : Symbol → Symbol} {σ τ : Symbols} {es es' : List Entry}
    (h : List.Forall₂ (Rebuilt m σ τ) es es') :
    (es'.map fun e => (⟨e.provenance, e.formula⟩ : SnapshotEntry)) =
      es.map fun e => ⟨e.provenance, e.formula.relabel m⟩ := by
  induction h with
  | nil => rfl
  | cons hrebuilt _ ih =>
    rw [List.map_cons, List.map_cons, ih, hrebuilt.formula, hrebuilt.provenance]

end Entry

namespace KnowledgeBase

/-- Stages of a base that was started empty, whatever the formulas of its calls
are, as long as the table has their names. -/
inductive Built : Stage → Prop
  | start (t : Session) (limits : Limits) : Built ⟨t, new limits, []⟩
  | elsewhere {s : Stage} (h : Built s) {t : Session} (hle : s.session.symbols ≤ t.symbols) :
    Built { s with session := t }
  | call {s : Stage} (h : Built s) (c : Call)
    (hknown : ∀ a ∈ c.formula.symbols, s.session.symbols.Knows a) : Built (c.run s)

/-- All entries have been converted in the session. -/
def Stage.IsConverted (s : Stage) : Prop := ∀ e ∈ s.base.entries, e.Converted s.session.symbols

variable {kb : KnowledgeBase} {f : Formula} {p : Provenance} {t : Session}

theorem converted_add (h : ∀ e ∈ kb.entries, e.Converted t.symbols)
    (hknown : ∀ a ∈ f.symbols, t.symbols.Knows a) (p : Provenance) :
    ∀ e ∈ (kb.add f p t).1.2.entries, e.Converted (kb.add f p t).2.symbols := by
  have hle := grows_add f p kb t
  rcases add_cases f p kb t with ⟨_, -, hentries⟩ | ⟨cs, hok, -, hentries⟩
  · rw [hentries]
    exact fun e he => (h e he).mono hle
  · rw [hentries, List.forall_mem_append, List.forall_mem_singleton]
    refine ⟨fun e he => (h e he).mono hle, kb.clausifier, t, hknown, hok, ?_⟩
    rw [symbols_add]

/-- What one call preserves. -/
theorem Stage.IsConverted.run {s : Stage} (h : s.IsConverted) {c : Call}
    (hknown : ∀ a ∈ c.formula.symbols, s.session.symbols.Knows a) : (c.run s).IsConverted := by
  obtain ⟨t, kb, fs⟩ := s
  cases c with
  | addAxiom f => exact converted_add h hknown .asserted
  | prove f => exact fun e he => (h e he).mono (grows_prove f kb t)
  | query f => exact fun e he => (h e he).mono (grows_query f kb t)
  | addLemma f =>
    have hle := grows_prove f kb t
    have hproven : ∀ e ∈ (kb.prove f t).1.2.entries, e.Converted (kb.prove f t).2.symbols :=
      fun e he => (h e he).mono hle
    unfold IsConverted Call.run
    dsimp only
    by_cases hentailed : (kb.prove f t).1.1 = .ok .entailed
    · obtain ⟨hbase, hsession⟩ := addLemma_of_entailed hentailed
      rw [hbase, hsession]
      exact converted_add hproven (fun a ha => (hknown a ha).mono hle) .proven
    · obtain ⟨-, hbase, hsymbols⟩ := addLemma_of_not_entailed hentailed
      rw [hbase, hsymbols]
      exact hproven

/-- What a whole run preserves. -/
theorem Built.isConverted {s : Stage} (h : Built s) : s.IsConverted := by
  induction h with
  | start t limits => exact fun e he => absurd he List.not_mem_nil
  | elsewhere _ hle ih => exact fun e he => (ih e he).mono hle
  | call _ c hknown ih => exact ih.run hknown

theorem add_of_ok {cs : ClauseSet} (hcs : (kb.clausifier.clausify f t).1.1 = .ok cs)
    (p : Provenance) :
    (kb.add f p t).1.1 = .ok () ∧ (kb.add f p t).1.2.entries = kb.entries ++ [⟨f, cs, p⟩] ∧
      (kb.add f p t).1.2.limits = kb.limits := by
  unfold add
  rw [bind_apply]
  rcases hclausify : kb.clausifier.clausify f t with ⟨⟨result, k⟩, t'⟩
  rw [hclausify] at hcs
  subst hcs
  exact ⟨rfl, rfl, rfl⟩

section Rebuild

variable {m : Symbol → Symbol} {σ : Symbols}

theorem exists_add_rebuilt {e : Entry} (he : e.Converted σ)
    (hm : σ.Namesakes t.symbols m e.formula.symbols) (kb : KnowledgeBase) :
    ∃ e', (kb.add (e.formula.relabel m) e.provenance t).1.1 = .ok () ∧
      (kb.add (e.formula.relabel m) e.provenance t).1.2.entries = kb.entries ++ [e'] ∧
      (kb.add (e.formula.relabel m) e.provenance t).1.2.limits = kb.limits ∧
      e.Rebuilt m σ (kb.add (e.formula.relabel m) e.provenance t).2.symbols e' := by
  obtain ⟨k, t₀, hnames, hok, hbefore⟩ := he
  have hfrom := hm.earlier ((Clausifier.le_clausify _ k t₀).trans hbefore) hnames
  have hverdict : (e.formula.relabel m).verdict = .ok () := by
    rw [Clausifier.verdict_namesake hfrom, Clausifier.clausify_eq_ok_iff.mp ⟨_, hok⟩]
    rfl
  obtain ⟨cs, hcs⟩ := Clausifier.clausify_eq_ok_iff (k := kb.clausifier) (s := t).mpr hverdict
  obtain ⟨hadded, hentries, hlimits⟩ := add_of_ok hcs e.provenance
  refine ⟨_, hadded, hentries, hlimits, rfl, rfl, fun hσ hτ => ?_⟩
  rw [symbols_add] at hτ
  obtain ⟨π, hπ, hagree, -, hrelabel⟩ := Clausifier.exists_relabel_of_clausify hfrom
    ((Symbols.size_le hbefore).trans_lt hσ) hτ hok
  rw [hcs, Except.ok.injEq] at hrelabel
  exact ⟨π, hπ, hagree, congrArg ClauseSet.clauses hrelabel⟩

theorem grows_addEntries (es : List SnapshotEntry) (kb : KnowledgeBase) :
    Grows (kb.addEntries es) := by
  induction es generalizing kb with
  | nil => exact grows_pure _
  | cons e es ih =>
    refine (grows_add e.formula e.provenance kb).bind fun a => ?_
    obtain ⟨result, kb'⟩ := a
    cases result with
    | error err => exact grows_pure _
    | ok => exact ih kb'

theorem addEntries_cons_of_ok {e : SnapshotEntry} (es : List SnapshotEntry)
    (h : (kb.add e.formula e.provenance t).1.1 = .ok ()) :
    kb.addEntries (e :: es) t =
      (kb.add e.formula e.provenance t).1.2.addEntries es (kb.add e.formula e.provenance t).2 := by
  rw [addEntries, bind_apply]
  rcases hadd : kb.add e.formula e.provenance t with ⟨⟨result, kb'⟩, t'⟩
  rw [hadd] at h
  subst h
  rfl

/-- Converted entries are added again without failure, also where their names have
other numbers. -/
theorem exists_addEntries_rebuilt {es : List Entry} (hes : ∀ e ∈ es, e.Converted σ)
    (hm : ∀ e ∈ es, σ.Namesakes t.symbols m e.formula.symbols) (kb : KnowledgeBase) :
    ∃ kb' es', (kb.addEntries (es.map fun e => ⟨e.provenance, e.formula.relabel m⟩) t).1 =
        .ok kb' ∧
      kb'.limits = kb.limits ∧ kb'.entries = kb.entries ++ es' ∧
      List.Forall₂ (Entry.Rebuilt m σ
        (kb.addEntries (es.map fun e => ⟨e.provenance, e.formula.relabel m⟩) t).2.symbols) es es' := by
  induction es generalizing kb t with
  | nil => exact ⟨kb, [], rfl, rfl, (List.append_nil _).symm, .nil⟩
  | cons e es ih =>
    rw [List.forall_mem_cons] at hes hm
    obtain ⟨e', hadded, hentries, hlimits, hrebuilt⟩ := exists_add_rebuilt hes.1 hm.1 kb
    have hle := grows_add (e.formula.relabel m) e.provenance kb t
    obtain ⟨kb', es', hok, hlimits', hentries', hall⟩ :=
      ih hes.2 (fun u hu => (hm.2 u hu).later hle) (kb.add (e.formula.relabel m) e.provenance t).1.2
    rw [List.map_cons, addEntries_cons_of_ok _ hadded]
    refine ⟨kb', e' :: es', hok, hlimits'.trans hlimits, ?_, .cons ?_ hall⟩
    · rw [hentries', hentries, List.append_assoc, List.singleton_append]
    · refine ⟨hrebuilt.formula, hrebuilt.provenance, fun hσ hτ => hrebuilt.clauses hσ ?_⟩
      exact (Symbols.size_le (grows_addEntries _ _ _)).trans_lt hτ

theorem grows_restore (s : Snapshot) (limits : Limits) : Grows (restore s limits) := by
  refine grows_get.bind fun t => grows_ite ?_ (grows_pure _)
  refine (grows_addEntries s.entries (new limits)).bind fun result => ?_
  cases result with
  | error e => exact grows_pure _
  | ok kb => exact grows_pure _

theorem restore_of_intact {s : Snapshot} (h : s.isIntact t.symbols = true) {limits : Limits}
    (hok : ((new limits).addEntries s.entries t).1 = .ok kb) :
    (restore s limits t).1 = .ok kb ∧
      (restore s limits t).2 = ((new limits).addEntries s.entries t).2 := by
  unfold restore
  rw [bind_apply, get_apply]
  dsimp only
  rw [if_pos h, bind_apply]
  rcases hadd : (new limits).addEntries s.entries t with ⟨result, t'⟩
  rw [hadd] at hok
  subst hok
  exact ⟨rfl, rfl⟩

theorem entries_snapshot_relabel (kb : KnowledgeBase) (σ : Symbols) (m : Symbol → Symbol) :
    ((kb.snapshot σ).relabel m).entries =
      kb.entries.map fun e => ⟨e.provenance, e.formula.relabel m⟩ :=
  List.map_map

theorem info_snapshot_relabel {τ : Symbols}
    (hm : ∀ e ∈ kb.entries, σ.Namesakes τ m e.formula.symbols) :
    ((kb.snapshot σ).relabel m).info τ = (kb.snapshot σ).info σ := by
  refine Snapshot.info_relabel fun e he => ?_
  obtain ⟨e, hmem, rfl⟩ := List.mem_map.mp he
  exact (hm e hmem).name

/-- The snapshot of a converted base can be restored wherever its names are in the
table. -/
theorem exists_restore_rebuilt (hes : ∀ e ∈ kb.entries, e.Converted σ)
    (hm : ∀ e ∈ kb.entries, σ.Namesakes t.symbols m e.formula.symbols) (limits : Limits) :
    ∃ kb', (restore ((kb.snapshot σ).relabel m) limits t).1 = .ok kb' ∧ kb'.limits = limits ∧
      List.Forall₂ (Entry.Rebuilt m σ
        (restore ((kb.snapshot σ).relabel m) limits t).2.symbols) kb.entries kb'.entries := by
  have hintact : ((kb.snapshot σ).relabel m).isIntact t.symbols = true := by
    refine Snapshot.isIntact_mk.mpr ?_
    rw [sealText_snapshot, ← info_snapshot_relabel hm]
    exact congrArg Seal.ofText (Snapshot.info_congr rfl)
  obtain ⟨kb', es', hok, hlimits, hbase, hall⟩ := exists_addEntries_rebuilt hes hm (new limits)
  rw [← entries_snapshot_relabel kb σ m] at hok hall
  obtain ⟨hrestored, hsession⟩ := restore_of_intact hintact hok
  rw [hrestored, hsession]
  refine ⟨kb', rfl, hlimits, ?_⟩
  rwa [hbase]

/-- A rebuilt base has the same snapshot. -/
theorem snapshot_of_rebuilt {kb' : KnowledgeBase} {τ υ : Symbols}
    (hm : ∀ e ∈ kb.entries, σ.Namesakes τ m e.formula.symbols)
    (h : List.Forall₂ (Entry.Rebuilt m σ υ) kb.entries kb'.entries) :
    kb'.snapshot τ = (kb.snapshot σ).relabel m := by
  have hentries : (kb'.snapshot τ).entries = ((kb.snapshot σ).relabel m).entries :=
    (Entry.map_of_rebuilt h).trans (entries_snapshot_relabel kb σ m).symm
  have hseal : (kb'.snapshot τ).sealText = (kb.snapshot σ).sealText := by
    rw [sealText_snapshot, sealText_snapshot, Snapshot.info_congr hentries,
      info_snapshot_relabel hm]
  calc kb'.snapshot τ = ⟨(kb'.snapshot τ).entries, (kb'.snapshot τ).sealText⟩ := rfl
    _ = (kb.snapshot σ).relabel m := by rw [hentries, hseal]; rfl

end Rebuild

/-- Whatever has been done to a base, its snapshot can be restored in the same
session. The new base has the same formulas for the same reasons in the same order
and the same snapshot, and the clauses of each entry are those of the old one up to
an injective renaming that keeps the symbols of the formula. Only the clauses need
that names have not outgrown their 32-bit words. -/
theorem restore_snapshot {s : Stage} (h : Built s) (limits : Limits) :
    ∃ kb', (restore (s.base.snapshot s.session.symbols) limits s.session).1 = .ok kb' ∧
      kb'.limits = limits ∧
      kb'.snapshot (restore (s.base.snapshot s.session.symbols) limits s.session).2.symbols =
        s.base.snapshot s.session.symbols ∧
      List.Forall₂ (fun e e' : Entry => e'.formula = e.formula ∧ e'.provenance = e.provenance ∧
        ((restore (s.base.snapshot s.session.symbols) limits s.session).2.symbols.size <
            UInt32.size →
          ∃ π : Symbol → Symbol, Function.Injective π ∧ (∀ a ∈ e.formula.symbols, π a = a) ∧
            e'.clauses.clauses = e.clauses.clauses.map (Clause.relabel π)))
        s.base.entries kb'.entries := by
  have hconverted := h.isConverted
  have hm (e : Entry) (he : e ∈ s.base.entries) :
      s.session.symbols.Namesakes s.session.symbols id e.formula.symbols :=
    .of_le le_rfl (hconverted e he).knows
  obtain ⟨kb', hok, hlimits, hall⟩ := exists_restore_rebuilt hconverted hm limits
  rw [Snapshot.relabel_id] at hok hall
  have hle := grows_restore (s.base.snapshot s.session.symbols) limits s.session
  refine ⟨kb', hok, hlimits, ?_, hall.imp fun e e' hrebuilt => ?_⟩
  · rw [snapshot_of_rebuilt (fun e he => (hm e he).later hle) hall, Snapshot.relabel_id]
  · refine ⟨hrebuilt.formula.trans (Formula.relabel_id _), hrebuilt.provenance, fun hsize => ?_⟩
    exact hrebuilt.clauses ((Symbols.size_le hle).trans_lt hsize) hsize

/-- The stage at which an axiom with two existential quantifiers has been accepted,
then one that mentions the second Skolem symbol of the first, and an open formula
has been refused. -/
def skolemStage : Stage :=
  (Call.addAxiom (.rel ⟨0⟩ [.var ⟨1⟩, .var ⟨1⟩])).run
    ((Call.addAxiom (.rel ⟨0⟩ [.const ⟨6⟩, .const ⟨6⟩])).run
      ((Call.addAxiom Clausifier.noTopButBottom).run
        ⟨.knowing ["P", "x", "y"], new .default, []⟩))

theorem built_skolemStage : Built skolemStage := by
  refine .call (.call (.call (.start _ _) _ ?_) _ ?_) _ ?_
  · decide
  · decide +kernel
  · decide +kernel

theorem restore_snapshot_skolemStage :
    Built skolemStage ∧
    skolemStage.base.formulas =
      [Clausifier.noTopButBottom, .rel ⟨0⟩ [.const ⟨6⟩, .const ⟨6⟩]] ∧
    ∃ kb', (restore (skolemStage.base.snapshot skolemStage.session.symbols) ⟨some 4, none⟩
        skolemStage.session).1 = .ok kb' ∧
      kb'.limits = ⟨some 4, none⟩ ∧
      kb'.snapshot (restore (skolemStage.base.snapshot skolemStage.session.symbols) ⟨some 4, none⟩
        skolemStage.session).2.symbols = skolemStage.base.snapshot skolemStage.session.symbols ∧
      List.Forall₂ (fun e e' : Entry => e'.formula = e.formula ∧ e'.provenance = e.provenance ∧
        ((restore (skolemStage.base.snapshot skolemStage.session.symbols) ⟨some 4, none⟩
            skolemStage.session).2.symbols.size < UInt32.size →
          ∃ π : Symbol → Symbol, Function.Injective π ∧ (∀ a ∈ e.formula.symbols, π a = a) ∧
            e'.clauses.clauses = e.clauses.clauses.map (Clause.relabel π)))
        skolemStage.base.entries kb'.entries := by
  have hformulas : skolemStage.base.formulas =
      [Clausifier.noTopButBottom, .rel ⟨0⟩ [.const ⟨6⟩, .const ⟨6⟩]] := by decide +kernel
  exact ⟨built_skolemStage, hformulas, restore_snapshot built_skolemStage ⟨some 4, none⟩⟩

end KnowledgeBase

end Entailment
