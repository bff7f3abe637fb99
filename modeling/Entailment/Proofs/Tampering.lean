import Entailment.Proofs.Legibility

/-! What a seal protects. It covers the text of a snapshot, so whoever changes
entries without changing their text is not found out: that is possible where a
name holds marks of the notation, and by exchanging a variable for a constant of the
same name. Every other change breaks the seal or needs a collision. -/
namespace Entailment

/-- Two texts under one seal. -/
def Seal.Collision (a b : String) : Prop := a ≠ b ∧ Seal.ofText a = Seal.ofText b

theorem Seal.ne_or_collision_iff (a b : String) :
    Seal.ofText a ≠ Seal.ofText b ∨ Seal.Collision a b ↔ a ≠ b := by
  constructor
  · rintro (hseal | ⟨hne, -⟩)
    · exact fun h => hseal (congrArg Seal.ofText h)
    · exact hne
  · intro hne
    by_cases hseal : Seal.ofText a = Seal.ofText b
    · exact .inr ⟨hne, hseal⟩
    · exact .inl hseal

namespace SnapshotEntry

/-- The entry as its text shows it. -/
def blur (e : SnapshotEntry) : SnapshotEntry := ⟨e.provenance, e.formula.blur⟩

def text (σ : Symbols) (e : SnapshotEntry) : String :=
  e.provenance.text ++ ":" ++ e.formula.render σ

/-- All names in the entry can be told from its text. -/
def Legible (σ : Symbols) (e : SnapshotEntry) : Prop := ∀ a ∈ e.formula.symbols, σ.Legible a

instance (σ : Symbols) (e : SnapshotEntry) : Decidable (e.Legible σ) :=
  inferInstanceAs (Decidable (∀ a ∈ e.formula.symbols, σ.Legible a))

variable {σ : Symbols}

theorem text_blur (e : SnapshotEntry) : e.blur.text σ = e.text σ := by
  unfold text blur
  rw [Formula.render_blur]

theorem blur_eq_of_text {e e' : SnapshotEntry} (he : e.Legible σ) (he' : e'.Legible σ)
    {rest rest' : List Char} (hrest : Reading.AfterFormula rest)
    (hrest' : Reading.AfterFormula rest')
    (h : (e.text σ).toList ++ rest = (e'.text σ).toList ++ rest') :
    e.blur = e'.blur ∧ rest = rest' := by
  obtain ⟨p, f⟩ := e
  obtain ⟨p', f'⟩ := e'
  unfold text at h
  -- the reasons differ in their first letters
  cases p <;> cases p' <;> simp [Provenance.text] at h
  · obtain ⟨hblur, hrest⟩ := Formula.blur_eq_of_render he he' hrest hrest' h
    exact ⟨congrArg (mk _) hblur, hrest⟩
  · obtain ⟨hblur, hrest⟩ := Formula.blur_eq_of_render he he' hrest hrest' h
    exact ⟨congrArg (mk _) hblur, hrest⟩

/-- The text of what follows the first entry. -/
def following (σ : Symbols) : List SnapshotEntry → String
  | [] => ""
  | e :: es => "," ++ ",".intercalate ((e :: es).map (text σ))

theorem intercalate_cons (e : SnapshotEntry) (es : List SnapshotEntry) :
    ",".intercalate ((e :: es).map (text σ)) = e.text σ ++ following σ es := by
  cases es with
  | nil => exact (String.append_empty).symm
  | cons e' es =>
    rw [List.map_cons, List.map_cons, String.intercalate_cons_cons, String.append_assoc]
    rfl

theorem afterFormula_following (es : List SnapshotEntry) :
    Reading.AfterFormula (following σ es).toList := by
  cases es with
  | nil => exact ⟨⟨nofun, nofun⟩, rfl⟩
  | cons e es =>
    rw [following, String.toList_append]
    exact ⟨Reading.afterTerm_cons rfl (by decide) _, rfl⟩

theorem text_append_ne_empty (e : SnapshotEntry) (rest : String) : e.text σ ++ rest ≠ "" := by
  intro h
  have hempty := congrArg String.toList h
  obtain ⟨p, f⟩ := e
  cases p <;> simp [text, Provenance.text] at hempty

theorem intercalate_eq_of_following {es es' : List SnapshotEntry}
    (h : following σ es = following σ es') :
    ",".intercalate (es.map (text σ)) = ",".intercalate (es'.map (text σ)) := by
  have hlist := congrArg String.toList h
  cases es with
  | nil => cases es' with
    | nil => rfl
    | cons e' es' => simp [following] at hlist
  | cons e es => cases es' with
    | nil => simp [following] at hlist
    | cons e' es' =>
      rw [following, following, String.toList_append, String.toList_append,
        List.append_cancel_left_eq] at hlist
      exact String.toList_inj.mp hlist

theorem map_blur_eq_of_texts {es es' : List SnapshotEntry} (hes : ∀ e ∈ es, e.Legible σ)
    (hes' : ∀ e ∈ es', e.Legible σ)
    (h : ",".intercalate (es.map (text σ)) = ",".intercalate (es'.map (text σ))) :
    es.map blur = es'.map blur := by
  induction es generalizing es' with
  | nil => cases es' with
    | nil => rfl
    | cons e' es' =>
      rw [intercalate_cons] at h
      exact absurd h.symm (text_append_ne_empty e' _)
  | cons e es ih => cases es' with
    | nil =>
      rw [intercalate_cons] at h
      exact absurd h (text_append_ne_empty e _)
    | cons e' es' =>
      rw [List.forall_mem_cons] at hes hes'
      rw [intercalate_cons, intercalate_cons] at h
      have hchars := congrArg String.toList h
      rw [String.toList_append, String.toList_append] at hchars
      obtain ⟨hhead, hrest⟩ := blur_eq_of_text hes.1 hes'.1 (afterFormula_following es)
        (afterFormula_following es') hchars
      have htail := ih hes.2 hes'.2 (intercalate_eq_of_following (String.toList_inj.mp hrest))
      rw [List.map_cons, List.map_cons, hhead, htail]

/-- Where names are resolved, the entries can be told from how they look. -/
theorem eq_of_map_blur {es es' : List SnapshotEntry}
    (hes : ∀ e ∈ es, e.formula.resolve [] = e.formula)
    (hes' : ∀ e ∈ es', e.formula.resolve [] = e.formula) (h : es.map blur = es'.map blur) :
    es = es' := by
  have hresolve {ds : List SnapshotEntry} (hds : ∀ e ∈ ds, e.formula.resolve [] = e.formula) :
      (ds.map blur).map (fun e => ⟨e.provenance, e.formula.resolve []⟩) = ds := by
    rw [List.map_map]
    refine (List.map_congr_left fun e he => ?_).trans (List.map_id' ds)
    rw [Function.comp_apply, blur, Formula.resolve_blur, hds e he]
  rw [← hresolve hes, h, hresolve hes']

end SnapshotEntry

namespace Snapshot

variable {σ : Symbols} {s s' : Snapshot}

theorem info_eq (σ : Symbols) (s : Snapshot) : s.info σ =
    "kbase|entries=[" ++ ",".intercalate (s.entries.map (SnapshotEntry.text σ)) ++ "]" := rfl

/-- The sealed text shows the entries up to the difference between variables and
constants, and nothing else. -/
theorem info_eq_iff (hs : ∀ e ∈ s.entries, e.Legible σ) (hs' : ∀ e ∈ s'.entries, e.Legible σ) :
    s.info σ = s'.info σ ↔
      s.entries.map SnapshotEntry.blur = s'.entries.map SnapshotEntry.blur := by
  constructor
  · intro h
    have hchars := congrArg String.toList h
    simp only [info_eq, String.toList_append, List.append_cancel_right_eq,
      List.append_cancel_left_eq] at hchars
    exact SnapshotEntry.map_blur_eq_of_texts hs hs' (String.toList_inj.mp hchars)
  · intro h
    have htexts (es : List SnapshotEntry) :
        es.map (SnapshotEntry.text σ) = (es.map SnapshotEntry.blur).map (SnapshotEntry.text σ) := by
      rw [List.map_map]
      exact List.map_congr_left fun e _ => (SnapshotEntry.text_blur e).symm
    rw [info_eq, info_eq, htexts, h, ← htexts]

end Snapshot

open SessionM

namespace KnowledgeBase

variable {kb : KnowledgeBase} {t : Session} {es : List SnapshotEntry}

theorem restore_eq_modified_iff {sealText : String} {limits : Limits} :
    (restore ⟨es, sealText⟩ limits t).1 = .error .modified ↔
      Seal.ofText (Snapshot.info t.symbols ⟨es, ""⟩) ≠ sealText := by
  unfold restore
  rw [bind_apply, get_apply]
  dsimp only
  by_cases hseal : Seal.ofText (Snapshot.info t.symbols ⟨es, ""⟩) = sealText
  · rw [if_pos (Snapshot.isIntact_mk.mpr hseal), bind_apply]
    rcases (new limits).addEntries es t with ⟨result, t'⟩
    refine iff_of_false ?_ (not_not.mpr hseal)
    cases result <;> nofun
  · rw [if_neg fun h => hseal (Snapshot.isIntact_mk.mp h)]
    exact iff_of_true rfl hseal

/-- A snapshot whose entries have been replaced while its seal was kept is found to be
modified exactly if the new entries look different, unless two texts with one seal
have been found. Entries look alike only if some variables and constants of one
name are exchanged. So if names are variables where a quantifier binds them and
constants elsewhere, every change is found. -/
theorem restore_tampered (limits : Limits)
    (hkb : ∀ e ∈ (kb.snapshot t.symbols).entries, e.Legible t.symbols)
    (hes : ∀ e ∈ es, e.Legible t.symbols) :
    ((restore ⟨es, (kb.snapshot t.symbols).sealText⟩ limits t).1 = .error .modified ∨
        Seal.Collision (Snapshot.info t.symbols ⟨es, ""⟩) ((kb.snapshot t.symbols).info t.symbols) ↔
      es.map SnapshotEntry.blur ≠ (kb.snapshot t.symbols).entries.map SnapshotEntry.blur) ∧
    ((∀ e ∈ es, e.formula.resolve [] = e.formula) →
      (∀ e ∈ (kb.snapshot t.symbols).entries, e.formula.resolve [] = e.formula) →
      es ≠ (kb.snapshot t.symbols).entries →
      (restore ⟨es, (kb.snapshot t.symbols).sealText⟩ limits t).1 = .error .modified ∨
        Seal.Collision (Snapshot.info t.symbols ⟨es, ""⟩)
          ((kb.snapshot t.symbols).info t.symbols)) := by
  have hlooks : (restore ⟨es, (kb.snapshot t.symbols).sealText⟩ limits t).1 = .error .modified ∨
        Seal.Collision (Snapshot.info t.symbols ⟨es, ""⟩) ((kb.snapshot t.symbols).info t.symbols) ↔
      es.map SnapshotEntry.blur ≠ (kb.snapshot t.symbols).entries.map SnapshotEntry.blur := by
    have hsame := Snapshot.info_eq_iff (s := ⟨es, ""⟩) hes hkb
    rw [restore_eq_modified_iff, sealText_snapshot]
    exact (Seal.ne_or_collision_iff _ _).trans (not_congr hsame)
  exact ⟨hlooks, fun hresolved hresolved' hne =>
    hlooks.mpr fun hblur => hne (SnapshotEntry.eq_of_map_blur hresolved hresolved' hblur)⟩

/-- A session in which `P`, `x` and `c` are the first names. -/
def predicateSession : Session := .knowing ["P", "x", "c"]

/-- The base that holds `∀ x. P(x)` and, as a lemma, `P(c)`. -/
def predicateBase : KnowledgeBase :=
  ⟨[⟨.all ⟨1⟩ (.rel ⟨0⟩ [.var ⟨1⟩]), ⟨[⟨[⟨.rel ⟨0⟩ [.var ⟨1⟩], false⟩]⟩]⟩, .asserted⟩,
    ⟨.rel ⟨0⟩ [.const ⟨2⟩], ⟨[⟨[⟨.rel ⟨0⟩ [.const ⟨2⟩], false⟩]⟩]⟩, .proven⟩], .new, .default⟩

/-- Its entries with the formulas exchanged. -/
def exchangedEntries : List SnapshotEntry :=
  [⟨.asserted, .rel ⟨0⟩ [.const ⟨2⟩]⟩, ⟨.proven, .all ⟨1⟩ (.rel ⟨0⟩ [.var ⟨1⟩])⟩]

theorem restore_tampered_exchange :
    (∀ e ∈ (predicateBase.snapshot predicateSession.symbols).entries,
      e.Legible predicateSession.symbols) ∧
    (∀ e ∈ exchangedEntries, e.Legible predicateSession.symbols) ∧
    ((restore ⟨exchangedEntries, (predicateBase.snapshot predicateSession.symbols).sealText⟩ .default
        predicateSession).1 = .error .modified ∨
      Seal.Collision (Snapshot.info predicateSession.symbols ⟨exchangedEntries, ""⟩)
        ((predicateBase.snapshot predicateSession.symbols).info predicateSession.symbols)) := by
  have hkb : ∀ e ∈ (predicateBase.snapshot predicateSession.symbols).entries,
      e.Legible predicateSession.symbols := by
    decide
  have hes : ∀ e ∈ exchangedEntries, e.Legible predicateSession.symbols := by
    decide
  exact ⟨hkb, hes, (restore_tampered .default hkb hes).2 (by decide) (by decide) (by decide)⟩

/-- The base that has accepted the one axiom. -/
def ofAxiom (f : Formula) (t : Session) : KnowledgeBase := ((new .default).addAxiom f t).1.2

theorem restore_of_info {kb' : KnowledgeBase}
    (hinfo : Snapshot.info t.symbols ⟨es, ""⟩ = (kb.snapshot t.symbols).info t.symbols)
    (limits : Limits) (hok : ((new limits).addEntries es t).1 = .ok kb') :
    (restore ⟨es, (kb.snapshot t.symbols).sealText⟩ limits t).1 = .ok kb' := by
  refine (restore_of_intact (Snapshot.isIntact_mk.mpr ?_) hok).1
  rw [sealText_snapshot, hinfo]

/-- Two changes that no seal shows. In the place of `∀ x. P(x)` the snapshot gets the
same text with a constant `x`, and in the place of `P(c)` a relation without
arguments whose name is `P(c)`. -/
theorem restore_lookalikes :
    (∃ kb', (restore ⟨[⟨.asserted, .all ⟨1⟩ (.rel ⟨0⟩ [.const ⟨1⟩])⟩],
        ((ofAxiom (.all ⟨1⟩ (.rel ⟨0⟩ [.var ⟨1⟩])) (.knowing ["P", "x"])).snapshot
          (Session.knowing ["P", "x"]).symbols).sealText⟩ .default (.knowing ["P", "x"])).1 = .ok kb' ∧
      kb'.formulas = [.all ⟨1⟩ (.rel ⟨0⟩ [.const ⟨1⟩])]) ∧
    ∃ kb', (restore ⟨[⟨.asserted, .rel ⟨2⟩ []⟩],
        ((ofAxiom (.rel ⟨0⟩ [.const ⟨1⟩]) (.knowing ["P", "c", "P(c)"])).snapshot
          (Session.knowing ["P", "c", "P(c)"]).symbols).sealText⟩ .default
        (.knowing ["P", "c", "P(c)"])).1 = .ok kb' ∧
      kb'.formulas = [.rel ⟨2⟩ []] := by
  refine ⟨⟨_, restore_of_info (by decide) _ rfl, ?_⟩, ⟨_, restore_of_info (by decide) _ rfl, ?_⟩⟩
  · rfl
  · rfl

end KnowledgeBase

end Entailment
