import Entailment.Proofs.Store
import Entailment.Proofs.Variants
import Mathlib

/-! Saturation closes a set of clauses under inference. When a search ends
without a contradiction, everything that can be inferred from its active clauses
is redundant: a tautology, an answer, or covered by an active clause. -/
namespace Entailment

open SessionM

namespace Saturation

variable {P : Clause → Prop} {σ : Symbols} {cs : List Clause} {s s' : Saturation} {t : Session}

/-- All clauses that the search started with, and all that follow from its active
clauses, are accounted for. -/
structure Closed (σ : Symbols) (cs : List Clause) (s : Saturation) : Prop where
  inputs : ∀ c ∈ cs, Accounted σ s c
  alone : ∀ id ∈ s.active, ∀ e ∈ unaryConsequences σ (s.clause id), Accounted σ s e
  joint : s.active.toList.Pairwise fun other id =>
    ∀ e ∈ consequences σ (s.clause id) (s.clause other), Accounted σ s e
  own : ∀ id ∈ s.active, ∃ copy, (s.clause id).Copy copy ∧
    ∀ e ∈ selfConsequences σ (s.clause id) copy, Accounted σ s e

theorem select_of_pick {id : Nat} (hpick : s.pick = some (id, s')) :
    select s t = (some (activate id s' t).1, (activate id s' t).2) := by
  unfold select
  rw [hpick]
  rfl

theorem select_of_pick_none (hpick : s.pick = none) : select s t = (none, t) := by
  unfold select
  rw [hpick]
  rfl

theorem pick_eq_none (h : (select s t).1 = none) : s.pick = none := by
  cases hpick : s.pick with
  | none => rfl
  | some p =>
    rw [select_of_pick hpick] at h
    cases h

/-- The copy of a clause that meets the clause itself, and the session then. -/
def copied (id : Nat) (s : Saturation) (t : Session) : (Clause × Saturation) × Session :=
  renameApart (s.clause id) (s.moved id) (note (.given id (s.clause id)) t).2

/-- What is taken in when a clause becomes active. -/
def harvest (id : Nat) (s : Saturation) (t : Session) : List Clause :=
  unaryConsequences t.symbols (s.clause id) ++
    (s.active.toList.flatMap fun other => consequences t.symbols (s.clause id) (s.clause other)) ++
    selfConsequences (copied id s t).2.symbols (s.clause id) (copied id s t).1.1

theorem activate_picked (id : Nat) (s : Saturation) (t : Session) :
    activate id (s.picked id) t =
      insertAll (harvest id s t) (copied id s t).1.2 (copied id s t).2 := rfl

theorem after_copied (id : Nat) (s : Saturation) (t : Session) : After s (copied id s t).1.2 :=
  ⟨Nat.le_refl _, fun _ _ => rfl, fun _ hf => hf⟩

theorem le_copied (id : Nat) (s : Saturation) (t : Session) :
    t.symbols ≤ (copied id s t).2.symbols :=
  grows_renameApart _ _ (note (.given id (s.clause id)) t).2

theorem Store.copied (h : Store P t.symbols s) {id : Nat} (hid : id ∈ s.byAge) :
    Store P (copied id s t).2.symbols (copied id s t).1.2 :=
  ((h.moved hid).counted _).mono (grows_renameApart _ _ (note (.given id (s.clause id)) t).2)

/-- The copy has new variables only. -/
theorem Store.copy_copied (h : Store P t.symbols s) {id : Nat} (hid : id < s.clauses.size)
    (hroom : Room P (Saturation.copied id s t).2.symbols) :
    (s.clause id).Copy (Saturation.copied id s t).1.1 := by
  obtain ⟨happart, hfresh⟩ := renamedBy_freshNames (hroom _ (h.clause hid))
  refine ⟨_, ⟨happart, fun x hx hmem => ?_⟩, rfl⟩
  exact (hfresh x hx).1 (h.known id hid _ hmem)

theorem Tame.harvest (hP : Tame σ P) (hσ : σ ≤ t.symbols) (h : Within P s) {id : Nat}
    (hid : id < s.clauses.size) : ∀ e ∈ harvest id s t, P e := by
  have hgiven := h.clause hid
  have hcopy : P (copied id s t).1.1 := hP.rename _ _ hgiven
  have hle := hσ.trans (le_copied id s t)
  intro e he
  rcases List.mem_append.mp he with he | he
  · rcases List.mem_append.mp he with he | he
    · exact hP.unary _ hσ _ hgiven e he
    · exact h.consequences hP.toDeductive hσ hgiven he
  · rcases List.mem_append.mp he with he | he
    · exact hP.resolvents _ hle _ _ hgiven hcopy e he
    · exact hP.paramodulants _ hle _ _ hgiven hcopy e he

/-- The harvest does not depend on the names made since the start. -/
theorem Tame.harvest_eq (hP : Tame σ P) (hσ : σ ≤ t.symbols) (h : Within P s) {id : Nat}
    (hid : id < s.clauses.size) :
    Saturation.harvest id s t =
      unaryConsequences σ (s.clause id) ++
        (s.active.toList.flatMap fun other => consequences σ (s.clause id) (s.clause other)) ++
        selfConsequences σ (s.clause id) (copied id s t).1.1 := by
  have hgiven := hP.relations _ (h.clause hid)
  have hcopy : Clause.RelationsIn σ (copied id s t).1.1 :=
    hP.relations _ (hP.rename _ _ (h.clause hid))
  unfold Saturation.harvest
  rw [unaryConsequences_eq_of_le hσ hgiven,
    selfConsequences_eq_of_le (hσ.trans (le_copied id s t)) hgiven hcopy]
  congr 2
  refine List.flatMap_congr fun other hother => consequences_eq_of_le hσ hgiven ?_
  exact hP.relations _ (h.clause (h.active other (Array.mem_toList_iff.mp hother)))

/-- A selection makes a passive clause active and takes in what follows. -/
theorem exists_of_select (h : Indexed s) (hselect : (select s t).1 = some s') :
    ∃ id ∈ s.byAge, s.pick = some (id, s.picked id) ∧
      s' = (insertAll (harvest id s t) (copied id s t).1.2 (copied id s t).2).1 ∧
      (select s t).2 = (insertAll (harvest id s t) (copied id s t).1.2 (copied id s t).2).2 := by
  cases hpick : s.pick with
  | none =>
    rw [select_of_pick_none hpick] at hselect
    cases hselect
  | some p =>
    obtain ⟨id, sp⟩ := p
    obtain ⟨hage, rfl⟩ := h.pick_eq hpick
    rw [select_of_pick hpick, activate_picked] at hselect ⊢
    exact ⟨id, hage, rfl, (Option.some.inj hselect).symm, rfl⟩

/-- After one selection, everything that follows from active clauses is accounted for
again. -/
theorem Closed.select (hP : Tame σ P) (hσ : σ ≤ t.symbols) (hstore : Store P t.symbols s)
    (h : Closed σ cs s) (hroom : Room P (select s t).2.symbols)
    (hselect : (select s t).1 = some s') :
    Store P (select s t).2.symbols s' ∧ Closed σ cs s' := by
  obtain ⟨id, hage, -, rfl, hsession⟩ := exists_of_select hstore.indexed hselect
  have hid := hstore.byAge id hage
  rw [hsession] at hroom ⊢
  have hcopy := hstore.copy_copied hid (hroom.of_le (grows_insertAll _ _ _))
  have hharvest := hP.harvest hσ hstore.toWithin hid
  obtain ⟨hstore', hall⟩ := (hstore.copied hage).insertAll hP
    (hσ.trans (le_copied id s t)) hharvest hroom
  have hafter := (after_copied id s t).trans
    (after_insertAll (harvest id s t) (copied id s t).1.2 (copied id s t).2)
  have hactive : (insertAll (harvest id s t) (copied id s t).1.2 (copied id s t).2).1.active =
    s.active.push id := (unchanged_insertAll _ _ _).1
  have hharvest_eq := hP.harvest_eq hσ hstore.toWithin hid
  have hall (e : Clause) (he : e ∈ _) := hall e (hharvest_eq ▸ he)
  -- Clauses that were active before keep what they had; for the new one it is in the harvest.
  refine ⟨hstore', fun c hc => (h.inputs c hc).after hafter, ?_, ?_, ?_⟩
  · rw [hactive]
    intro n hn e he
    rcases Array.mem_push.mp hn with hn | rfl
    · rw [hafter.clause n (hstore.active n hn)] at he
      exact (h.alone n hn e he).after hafter
    · rw [hafter.clause n hid] at he
      exact hall e (List.mem_append_left _ (List.mem_append_left _ he))
  · rw [hactive, Array.toList_push, List.pairwise_append]
    refine ⟨h.joint.imp_of_mem ?_, List.pairwise_singleton _ _, ?_⟩
    · intro other n hother hn hpair e he
      rw [hafter.clause n (hstore.active n (Array.mem_toList_iff.mp hn)),
        hafter.clause other (hstore.active other (Array.mem_toList_iff.mp hother))] at he
      exact (hpair e he).after hafter
    · intro other hother n hn e he
      rw [List.mem_singleton.mp hn, hafter.clause id hid,
        hafter.clause other (hstore.active other (Array.mem_toList_iff.mp hother))] at he
      refine hall e (List.mem_append_left _ (List.mem_append_right _ ?_))
      exact List.mem_flatMap.mpr ⟨other, hother, he⟩
  · rw [hactive]
    intro n hn
    rcases Array.mem_push.mp hn with hn | rfl
    · rw [hafter.clause n (hstore.active n hn)]
      obtain ⟨copy, hcopies, hown⟩ := h.own n hn
      exact ⟨copy, hcopies, fun e he => (hown e he).after hafter⟩
    · rw [hafter.clause n hid]
      exact ⟨_, hcopy, fun e he => hall e (List.mem_append_right _ he)⟩

section Pursuit

variable {β γ : Type} {listen : β → Clause → SessionM (β × Option γ)} {b : β}

/-- A contradiction stays pending until it is reported. -/
theorem drain_keeps (listen : β → Clause → SessionM (β × Option γ)) (fs : List Finding) (b : β)
    (t : Session) (h : (drain listen fs b t).1.1 ≠ some (.ended .contradiction))
    (hfs : .contradiction ∈ fs) : .contradiction ∈ (drain listen fs b t).1.2.1 := by
  induction fs generalizing b t with
  | nil => cases hfs
  | cons f fs ih =>
    cases f with
    | contradiction => exact absurd rfl h
    | answer c =>
      have hrest : .contradiction ∈ fs := (List.mem_cons.mp hfs).resolve_left nofun
      cases hstop : (listen b c t).1.2 with
      | none =>
        rw [drain_answer_of_none hstop] at h ⊢
        exact ih _ _ h hrest
      | some g => rwa [drain_answer_of_some hstop]

/-- What a search keeps up: when names are added, when findings are reported, and
when a clause is selected. -/
structure Invariant (Inv : Symbols → Saturation → Prop) : Prop where
  mono : ∀ {σ τ s}, σ ≤ τ → Inv σ s → Inv τ s
  drained : ∀ {σ s rest}, Inv σ s → (∀ f ∈ rest, f ∈ s.pending) →
    (.contradiction ∈ s.pending → .contradiction ∈ rest) → Inv σ { s with pending := rest }
  select : ∀ {s s' t}, Inv t.symbols s → (select s t).1 = some s' → Inv (select s t).2.symbols s'

variable {Inv : Symbols → Saturation → Prop}

theorem Invariant.drain (hInv : Invariant Inv) (hlisten : ∀ b c, Grows (listen b c))
    (h : Inv t.symbols s) {report : Option (Report γ)} {rest : List Finding} {b' : β}
    {t' : Session} (hdrain : drain listen s.pending b t = ((report, rest, b'), t'))
    (hreport : report ≠ some (.ended .contradiction)) :
    Inv t'.symbols { s with pending := rest } := by
  have hsubset := (drain_subset listen s.pending b t).1
  have hkeeps := drain_keeps listen s.pending b t
  rw [hdrain] at hsubset hkeeps
  exact hInv.drained (hInv.mono (le_of_drain hlisten hdrain) h) hsubset (hkeeps hreport)

/-- However far a search goes, it reports a contradiction or keeps its invariant; at
saturation nothing is pending and nothing left to select. -/
theorem Invariant.pursueFor (hInv : Invariant Inv) (hlisten : ∀ b c, Grows (listen b c))
    (h : Inv t.symbols s) (n : Nat) (b : β)
    (hreport : (pursueFor listen n s b t).1.1 ≠ .ended .contradiction) :
    Inv (pursueFor listen n s b t).2.symbols (pursueFor listen n s b t).1.2.1 ∧
      ((pursueFor listen n s b t).1.1 = .ended .saturated →
        (pursueFor listen n s b t).1.2.1.pending = [] ∧
          (pursueFor listen n s b t).1.2.1.pick = none) := by
  have hrun := pursuit listen n s b t
  generalize Saturation.pursueFor listen n s b t = r at hrun hreport ⊢
  induction hrun with
  | report hdrain =>
    refine ⟨hInv.drain hlisten h hdrain fun heq => hreport (Option.some.inj heq), ?_⟩
    rintro rfl
    cases eq_contradiction_of_drain hdrain
  | exhausted hdrain | timedOut hdrain _ => exact ⟨hInv.drain hlisten h hdrain nofun, nofun⟩
  | saturated hdrain _ hselect =>
    have hs := hInv.drain hlisten h hdrain nofun
    exact ⟨hInv.mono (grows_select _ _) hs, fun _ => ⟨rfl, pick_eq_none hselect⟩⟩
  | selected hdrain _ hselect _ ih =>
    exact ih (hInv.select (hInv.drain hlisten h hdrain nofun) hselect) hreport

end Pursuit

theorem Accounted.drained {c : Clause} {rest : List Finding} (h : Accounted σ s c)
    (hrest : .contradiction ∈ s.pending → .contradiction ∈ rest) :
    Accounted σ { s with pending := rest } c :=
  h.imp_right (Or.imp_right (Or.imp_right fun h => ⟨h.1, hrest h.2⟩))

theorem Store.drained {rest : List Finding} (h : Store P σ s) (hrest : ∀ f ∈ rest, f ∈ s.pending) :
    Store P σ { s with pending := rest } :=
  { h with
    toWithin := ⟨h.clauses, fun f hf => h.pending f (hrest f hf), h.active, h.byWeight, h.byAge⟩ }

theorem Closed.drained {rest : List Finding} (h : Closed σ cs s)
    (hrest : .contradiction ∈ s.pending → .contradiction ∈ rest) :
    Closed σ cs { s with pending := rest } where
  inputs c hc := (h.inputs c hc).drained hrest
  alone id hid e he := (h.alone id hid e he).drained hrest
  joint := h.joint.imp fun hpair e he => (hpair e he).drained hrest
  own id hid := by
    obtain ⟨copy, hcopy, hown⟩ := h.own id hid
    exact ⟨copy, hcopy, fun e he => (hown e he).drained hrest⟩

/-- The search from the clauses `cs` in a table `σ` is closed so far, unless names
have run out. -/
def Maintained (P : Clause → Prop) (σ : Symbols) (cs : List Clause) (τ : Symbols)
    (s : Saturation) : Prop :=
  σ ≤ τ ∧ (Room P τ → Store P τ s ∧ Closed σ cs s)

theorem invariant_maintained (hP : Tame σ P) (cs : List Clause) :
    Invariant (Maintained P σ cs) where
  mono hle h := ⟨h.1.trans hle, fun hroom => (h.2 (hroom.of_le hle)).imp_left (·.mono hle)⟩
  drained h hrest hcontradiction :=
    ⟨h.1, fun hroom => (h.2 hroom).imp (·.drained hrest) (·.drained hcontradiction)⟩
  select {s s' t} h hselect := by
    have hle := grows_select s t
    refine ⟨h.1.trans hle, fun hroom => ?_⟩
    obtain ⟨hstore, hclosed⟩ := h.2 (hroom.of_le hle)
    exact hclosed.select hP h.1 hstore hroom hselect

theorem maintained_start (hP : Tame t.symbols P) (hcs : ∀ c ∈ cs, P c) (limits : Limits) :
    Maintained P t.symbols cs (start cs limits t).2.symbols (start cs limits t).1 := by
  refine ⟨grows_insertAll cs _ t, fun hroom => ?_⟩
  obtain ⟨hstore, hinputs⟩ := (Store.init P t.symbols limits).insertAll hP le_rfl hcs hroom
  have hactive : (start cs limits t).1.active = #[] := (unchanged_insertAll cs _ t).1
  refine ⟨hstore, hinputs, ?_, ?_, ?_⟩
  · simp [hactive]
  · simp [hactive]
  · simp [hactive]

/-- The clause is of no use to a search: a tautology, an answer, or covered by an
active clause. -/
def Redundant (σ : Symbols) (s : Saturation) (c : Clause) : Prop :=
  c.isTautology = true ∨ c.isAnswer σ = true ∨ ∃ id ∈ s.active, (s.clause id).Covers c

theorem Store.redundant {c : Clause} (h : Store P σ s) (hpending : s.pending = [])
    (hpick : s.pick = none) {τ : Symbols} (hc : Accounted τ s c) : Redundant τ s c := by
  refine hc.imp_right (Or.imp_right ?_)
  rintro (⟨id, hid, hcovers⟩ | ⟨-, hcontradiction⟩)
  · exact ⟨id, (h.listed id hid).resolve_right (h.indexed.not_mem_byAge hpick id), hcovers⟩
  · rw [hpending] at hcontradiction
    cases hcontradiction

/-- Nothing of use can be inferred from the active clauses any more. -/
structure Saturated (σ : Symbols) (cs : List Clause) (s : Saturation) : Prop where
  inputs : ∀ c ∈ cs, Redundant σ s c
  factors : ∀ id ∈ s.active, ∀ e ∈ (s.clause id).factors σ, Redundant σ s e
  equalityResolvents : ∀ id ∈ s.active, ∀ e ∈ (s.clause id).equalityResolvents, Redundant σ s e
  copies : ∀ id ∈ s.active, ∀ copy, (s.clause id).Copy copy →
    ∀ e ∈ (s.clause id).resolvents σ copy ++ (s.clause id).paramodulants σ copy, Redundant σ s e
  pairs : s.active.toList.Pairwise fun earlier later =>
    ∀ e ∈ (s.clause later).resolvents σ (s.clause earlier) ++
      (s.clause later).paramodulants σ (s.clause earlier) ++
      (s.clause earlier).paramodulants σ (s.clause later), Redundant σ s e

theorem Closed.own_of_copy (h : Closed σ cs s) {id : Nat} (hid : id ∈ s.active)
    (hnormal : (s.clause id).Normal) {copy e : Clause} (hcopy : (s.clause id).Copy copy)
    (he : e ∈ selfConsequences σ (s.clause id) copy) : Accounted σ s e := by
  obtain ⟨made, hmade, hown⟩ := h.own id hid
  obtain ⟨e', he', θ, η, rfl, hη⟩ :=
    Clause.exists_variant_selfConsequence hnormal hcopy hmade he
  have hnormal' : (e'.under θ).Normal := Clause.normal_mapTerms _ e'
  refine (hown e' he').under ?_ ?_
  · rw [← hη]
    exact Clause.normal_mapTerms _ _
  · have hle := Clause.size_under_le hnormal' η
    rwa [hη] at hle

theorem Maintained.saturated {τ : Symbols} (hP : Tame σ P) (h : Maintained P σ cs τ s)
    (hroom : Room P τ) (hpending : s.pending = []) (hpick : s.pick = none) : Saturated σ cs s := by
  obtain ⟨hstore, hclosed⟩ := h.2 hroom
  have hredundant {e : Clause} (he : Accounted σ s e) : Redundant σ s e :=
    hstore.redundant hpending hpick he
  refine ⟨fun c hc => hredundant (hclosed.inputs c hc), ?_, ?_, ?_, ?_⟩
  · exact fun id hid e he => hredundant (hclosed.alone id hid e (List.mem_append_left _ he))
  · exact fun id hid e he => hredundant (hclosed.alone id hid e (List.mem_append_right _ he))
  · intro id hid copy hcopy e he
    have hnormal := hP.normal _ (hstore.clause (hstore.active id hid))
    exact hredundant (hclosed.own_of_copy hid hnormal hcopy he)
  · exact hclosed.joint.imp fun hpair e he => hredundant (hpair e he)

theorem Redundant.of_le {τ : Symbols} (hτ : σ ≤ τ) {c : Clause} (hc : c.RelationsIn σ)
    (h : Redundant σ s c) : Redundant τ s c :=
  h.imp_right (Or.imp_left (Clause.isAnswer_eq_of_le hτ hc).trans)

/-- Names that are added later make no difference. -/
theorem Saturated.of_le {τ : Symbols} (hP : Tame σ P) (hτ : σ ≤ τ) (hs : Within P s)
    (hcs : ∀ c ∈ cs, P c) (h : Saturated σ cs s) : Saturated τ cs s := by
  have hrel {id : Nat} (hid : id ∈ s.active) := hP.relations _ (hs.clause (hs.active id hid))
  have hlater {e : Clause} (he : P e) (h : Redundant σ s e) : Redundant τ s e :=
    h.of_le hτ (hP.relations e he)
  have hpair {c d e : Clause} (hc : P c) (hd : P d)
      (he : e ∈ c.resolvents σ d ∨ e ∈ c.paramodulants σ d) : P e :=
    he.elim (hP.resolvents σ le_rfl c d hc hd e) (hP.paramodulants σ le_rfl c d hc hd e)
  refine ⟨fun c hc => hlater (hcs c hc) (h.inputs c hc), ?_, ?_, ?_, ?_⟩
  · intro id hid e he
    rw [Clause.factors, Clause.mergers_eq_of_le hτ (hrel hid)] at he
    exact hlater (hP.unary σ le_rfl _ (hs.clause (hs.active id hid)) e (List.mem_append_left _ he))
      (h.factors id hid e he)
  · intro id hid e he
    exact hlater (hP.unary σ le_rfl _ (hs.clause (hs.active id hid)) e (List.mem_append_right _ he))
      (h.equalityResolvents id hid e he)
  · rintro id hid _ ⟨ρ, hρ, rfl⟩ e he
    have hc := hs.clause (hs.active id hid)
    have hcopy := hP.rename _ ρ hc
    rw [Clause.resolvents_eq_of_le hτ (hrel hid) (hP.relations _ hcopy),
      Clause.paramodulants_eq_of_le hτ (hP.relations _ hcopy)] at he
    exact hlater (hpair hc hcopy (List.mem_append.mp he)) (h.copies id hid _ ⟨ρ, hρ, rfl⟩ e he)
  · refine h.pairs.imp_of_mem fun {earlier later} hearlier hlater' hredundant e he => ?_
    have hearlier := Array.mem_toList_iff.mp hearlier
    have hlater' := Array.mem_toList_iff.mp hlater'
    have hd := hs.clause (hs.active _ hearlier)
    have hc := hs.clause (hs.active _ hlater')
    rw [Clause.resolvents_eq_of_le hτ (hrel hlater') (hrel hearlier),
      Clause.paramodulants_eq_of_le hτ (hrel hearlier),
      Clause.paramodulants_eq_of_le hτ (hrel hlater')] at he
    refine hlater ?_ (hredundant e he)
    rcases List.mem_append.mp he with he | he
    · exact hpair hc hd (List.mem_append.mp he)
    · exact hpair hd hc (.inr he)

theorem deductive_relationsIn (σ : Symbols) : Deductive σ (Clause.RelationsIn σ) := by
  refine deductive_literals (p := fun l => l.atom.RelationIn σ) ?_ ?_
  · rintro ⟨a, n⟩ θ h
    exact Atom.relationIn_mapTerms h
  · rintro l r - ⟨a, n⟩ path t h
    exact Atom.relationIn_replaceAt h

/-- Sorted clauses over a table are never left. -/
theorem tame_relationsIn (σ : Symbols) :
    Tame σ fun c => c.Normal ∧ ∀ l ∈ c.literals, l.atom.RelationIn σ where
  toDeductive := (deductive_normal σ).and (deductive_relationsIn σ)
  normal _ h := h.1
  relations _ h := h.2

section Run

/-- Searches from the clauses `cs` that were started in the session `t₀`, with the
session they are now in. They may have been interrupted while other computations
added names, and they never reported a contradiction. -/
inductive Run (cs : List Clause) (limits : Limits) (t₀ : Session) : Saturation → Session → Prop
  | start : Run cs limits t₀ (start cs limits t₀).1 (start cs limits t₀).2
  | elsewhere {s : Saturation} {t t' : Session} (h : Run cs limits t₀ s t)
      (hnames : t.symbols ≤ t'.symbols) : Run cs limits t₀ s t'
  | next {s : Saturation} {t : Session} (h : Run cs limits t₀ s t)
      (hreport : (s.next t).1.1 ≠ .ended .contradiction) :
      Run cs limits t₀ (s.next t).1.2 (s.next t).2

variable {limits : Limits} {t₀ : Session}

theorem Invariant.next {Inv : Symbols → Saturation → Prop} (hInv : Invariant Inv)
    (h : Inv t.symbols s) (hreport : (s.next t).1.1 ≠ .ended .contradiction) :
    Inv (s.next t).2.symbols (s.next t).1.2 ∧
      ((s.next t).1.1 = .ended .saturated →
        (s.next t).1.2.pending = [] ∧ (s.next t).1.2.pick = none) :=
  hInv.pursueFor (fun (_ : Unit) c => grows_pure ((), some c)) h (s.remaining t.horizon) () hreport

theorem Run.maintained (hP : Tame t₀.symbols P) (hcs : ∀ c ∈ cs, P c)
    (hrun : Run cs limits t₀ s t) : Maintained P t₀.symbols cs t.symbols s := by
  induction hrun with
  | start => exact maintained_start hP hcs limits
  | elsewhere _ hnames ih => exact (invariant_maintained hP cs).mono hnames ih
  | next _ hreport ih => exact ((invariant_maintained hP cs).next ih hreport).1

/-- A search that ends in saturation, without a contradiction reported before, has
closed its clauses under all rules. -/
theorem saturated_of_run {lss : List (List Literal)}
    (hordered : ∀ ls ∈ lss, ∀ l ∈ ls, l.atom.Ordered)
    (hknown : ∀ ls ∈ lss, ∀ l ∈ ls, ∀ a ∈ l.atom.symbols, t₀.symbols.Knows a)
    (hrun : Run (lss.map .ofList) limits t₀ s t)
    (hsize : (s.next t).2.symbols.size < UInt32.size)
    (hsaturated : (s.next t).1.1 = .ended .saturated) :
    Saturated (s.next t).2.symbols (lss.map .ofList) (s.next t).1.2 := by
  have hP := tame_relationsIn t₀.symbols
  have hcs : ∀ c ∈ lss.map Clause.ofList,
      c.Normal ∧ ∀ l ∈ c.literals, l.atom.RelationIn t₀.symbols := by
    intro c hc
    obtain ⟨ls, hls, rfl⟩ := List.mem_map.mp hc
    refine ⟨Clause.normal_ofList (hordered ls hls), fun l hl => ?_⟩
    exact Atom.relationIn_of_symbols (hknown ls hls l (Clause.mem_ofList.mp hl))
  have hroom : Room (fun c => c.Normal ∧ ∀ l ∈ c.literals, l.atom.RelationIn t₀.symbols)
      (s.next t).2.symbols := fun _ _ => .inr hsize
  obtain ⟨hmaintained, hend⟩ := (invariant_maintained hP _).next (hrun.maintained hP hcs)
    (by rw [hsaturated]; nofun)
  obtain ⟨hpending, hpick⟩ := hend hsaturated
  exact (hmaintained.saturated hP hroom hpending hpick).of_le hP hmaintained.1
    (hmaintained.2 hroom).1.toWithin hcs

/-- The clauses `c = d`, `P(c)` and `¬P(d) ∨ Q(c)`, where `P`, `Q`, `c` and `d` are the
first names. -/
def replacementInput : List (List Literal) :=
  [[⟨.eq (.const ⟨2⟩) (.const ⟨3⟩), false⟩], [⟨.rel ⟨0⟩ [.const ⟨2⟩], false⟩],
    [⟨.rel ⟨0⟩ [.const ⟨3⟩], true⟩, ⟨.rel ⟨1⟩ [.const ⟨2⟩], false⟩]]

def replacementSearch : Saturation × Session :=
  start (replacementInput.map .ofList) ⟨some 20, none⟩ (.knowing ["P", "Q", "c", "d"])

/-- Replacement and resolution give `P(d)`, `Q(c)` and `Q(d)`, and then nothing new. -/
theorem saturated_of_run_replacement :
    (replacementSearch.1.next replacementSearch.2).1.1 = .ended .saturated ∧
    Saturated (replacementSearch.1.next replacementSearch.2).2.symbols
      (replacementInput.map .ofList) (replacementSearch.1.next replacementSearch.2).1.2 := by
  have hordered : ∀ ls ∈ replacementInput, ∀ l ∈ ls, l.atom.Ordered := by
    simp only [replacementInput, List.mem_cons, List.not_mem_nil, or_false, forall_eq_or_imp,
      forall_eq, Atom.Ordered, and_true]
    decide
  have hrun : ((replacementSearch.1.next replacementSearch.2).1.1,
      (replacementSearch.1.next replacementSearch.2).2.symbols.size) = (.ended .saturated, 5) := by
    cbv
  obtain ⟨hsaturated, hsize⟩ := Prod.mk.inj hrun
  refine ⟨hsaturated, saturated_of_run hordered ?_ .start (hsize.trans_lt ?_) hsaturated⟩
  all_goals decide

end Run

end Saturation

end Entailment
