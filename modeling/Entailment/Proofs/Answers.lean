import Entailment.Proofs.Closure

/-! What a search tells its listener. Stored clauses have variables that were made for
them, and inferences bring in no others. So the variables of an answer are new to
the table in which the search was started, unless one of its own clauses was an
answer. -/
namespace Entailment

open SessionM

/-- The clause has no variable of the kind `V`. -/
def Clause.Avoids (V : Symbol → Prop) (c : Clause) : Prop := ∀ x ∈ c.vars, ¬ V x

theorem Clause.Inferred.avoids {V : Symbol → Prop} {c d e : Clause} (h : Inferred c d e)
    (hc : c.Avoids V) (hd : d.Avoids V) : e.Avoids V :=
  fun x hx => (h.vars hx).elim (hc x) (hd x)

namespace Saturation

variable {P : Clause → Prop} {V : Symbol → Prop} {σ τ : Symbols} {cs : List Clause} {c : Clause}
  {s s' : Saturation} {t : Session}

/-- Stored clauses and answers have no variables of the kind `V`. -/
structure Apart (V : Symbol → Prop) (σ : Symbols) (s : Saturation) : Prop where
  clauses : ∀ c ∈ s.clauses, c.Avoids V
  answers : ∀ c, .answer c ∈ s.pending → c.isAnswer σ = true ∧ c.Avoids V

theorem Apart.insert (hV : ∀ x, V x → σ.Knows x) (h : Apart V σ s) (hσ : σ ≤ t.symbols)
    (hc : c.RelationsIn σ) (hanswer : c.isAnswer σ = true → c.Avoids V)
    (hsize : (insert c s t).2.symbols.size < UInt32.size) : Apart V σ (insert c s t).1 := by
  have hreport {f : Finding} (hf : ∀ d, f = .answer d → d.isAnswer σ = true ∧ d.Avoids V) :
      Apart V σ (s.report f) := by
    refine ⟨h.clauses, fun d hd => ?_⟩
    rcases List.mem_append.mp hd with hd | hd
    · exact h.answers d hd
    · exact hf d (List.mem_singleton.mp hd).symm
  have htaken := taken_insert c s t
  generalize (Saturation.insert c s t).1 = s' at htaken ⊢
  cases htaken with
  | contradiction => exact hreport nofun
  | tautology | duplicate => exact h
  | answer hc' =>
    rw [Clause.isAnswer_eq_of_le hσ hc] at hc'
    refine hreport ?_
    rintro d ⟨⟩
    exact ⟨hc', hanswer hc'⟩
  | subsumed => exact ⟨h.clauses, h.answers⟩
  | stored names counter hnames hempty htautology hanswer' hnew hsubsumed =>
    rw [symbols_insert_of_stored hempty htautology hanswer' hnew hsubsumed] at hsize
    obtain ⟨-, hfresh⟩ := renamedBy_freshNames (.inr hsize)
    rw [hnames] at hfresh
    refine ⟨fun d hd => ?_, h.answers⟩
    rcases Array.mem_push.mp hd with hd | rfl
    · exact h.clauses d hd
    · intro y hy hkind
      obtain ⟨x, hx, rfl⟩ := Clause.mem_vars_rename.mp hy
      exact (hfresh x hx).1 ((hV _ hkind).mono (hσ.trans (c.le_canonical t.symbols)))

theorem Apart.insertAll (hV : ∀ x, V x → σ.Knows x) (h : Apart V σ s) (hσ : σ ≤ t.symbols)
    (hcs : ∀ c ∈ cs, c.RelationsIn σ ∧ (c.isAnswer σ = true → c.Avoids V))
    (hsize : (insertAll cs s t).2.symbols.size < UInt32.size) :
    Apart V σ (insertAll cs s t).1 := by
  induction cs generalizing s t with
  | nil => exact h
  | cons c cs ih =>
    obtain ⟨hc, hcs⟩ := List.forall_mem_cons.mp hcs
    have hhead : (Saturation.insert c s t).2.symbols.size < UInt32.size :=
      (Symbols.size_le (grows_insertAll cs _ (Saturation.insert c s t).2)).trans_lt hsize
    exact ih (h.insert hV hσ hc.1 hc.2 hhead) (hσ.trans (grows_insert c s t)) hcs hsize

theorem clause_mem {id : Nat} (h : id < s.clauses.size) : s.clause id ∈ s.clauses := by
  rw [clause, Array.getD_eq_getD_getElem?, Array.getElem?_eq_getElem h]
  exact Array.getElem_mem h

/-- The consequences of a clause that is made active have none of these variables, as
its copy has none. -/
theorem Apart.activate (hP : Deductive σ P) (hrel : ∀ c, P c → c.RelationsIn σ)
    (hV : ∀ x, V x → σ.Knows x) (hσ : σ ≤ t.symbols) (hs : Within P s) (h : Apart V σ s) {id : Nat}
    (hid : id < s.clauses.size) (hsize : (activate id s t).2.symbols.size < UInt32.size) :
    Apart V σ (activate id s t).1 := by
  let r := renameApart (s.clause id)
    { s with active := s.active.push id, iterations := s.iterations + 1 }
    (note (.given id (s.clause id)) t).2
  have hr : σ ≤ r.2.symbols := hσ.trans (grows_renameApart _ _ _)
  have hsizeCopy : r.2.symbols.size < UInt32.size :=
    (Symbols.size_le (grows_insertAll _ r.1.2 r.2)).trans_lt hsize
  have hgiven := hs.clause hid
  have hcopy : P r.1.1 := hP.rename (s.clause id) _ hgiven
  have hgivenNew := h.clauses _ (clause_mem hid)
  have hcopyNew : r.1.1.Avoids V := by
    intro y hy hkind
    obtain ⟨x, hx, rfl⟩ := Clause.mem_vars_rename.mp hy
    exact ((renamedBy_freshNames (.inr hsizeCopy)).2 x hx).1 ((hV _ hkind).mono hσ)
  refine insertAll hV (s := r.1.2) (t := r.2) ⟨h.clauses, h.answers⟩ hr (fun e he => ?_) hsize
  -- What is found comes from the given clause alone, from it and an active one, or from its copy.
  have hfound : P e ∧ e.Avoids V := by
    rcases List.mem_append.mp he with he | he
    · rcases List.mem_append.mp he with he | he
      · exact ⟨hP.unary _ hσ _ hgiven e he,
          (Clause.inferred_of_mem_unaryConsequences he).avoids hgivenNew hgivenNew⟩
      · refine ⟨hs.consequences hP hσ hgiven he, ?_⟩
        obtain ⟨other, hother, he⟩ := List.mem_flatMap.mp he
        have hotherId := hs.active other (Array.mem_toList_iff.mp hother)
        have hotherNew := h.clauses _ (clause_mem hotherId)
        rcases List.mem_append.mp he with he | he
        · rcases List.mem_append.mp he with he | he
          · exact (Clause.inferred_of_mem_resolvents he).avoids hgivenNew hotherNew
          · exact (Clause.inferred_of_mem_paramodulants he).avoids hgivenNew hotherNew
        · exact (Clause.inferred_of_mem_paramodulants he).avoids hotherNew hgivenNew
    · rcases List.mem_append.mp he with he | he
      · exact ⟨hP.resolvents _ hr _ _ hgiven hcopy e he,
          (Clause.inferred_of_mem_resolvents he).avoids hgivenNew hcopyNew⟩
      · exact ⟨hP.paramodulants _ hr _ _ hgiven hcopy e he,
          (Clause.inferred_of_mem_paramodulants he).avoids hgivenNew hcopyNew⟩
  exact ⟨hrel e hfound.1, fun _ => hfound.2⟩

theorem Apart.select (hP : Deductive σ P) (hrel : ∀ c, P c → c.RelationsIn σ)
    (hV : ∀ x, V x → σ.Knows x) (hσ : σ ≤ t.symbols) (hs : Within P s) (h : Apart V σ s)
    (hselect : (select s t).1 = some s') (hsize : (select s t).2.symbols.size < UInt32.size) :
    Apart V σ s' := by
  cases hpick : s.pick with
  | none =>
    rw [select_of_pick_none hpick] at hselect
    cases hselect
  | some p =>
    obtain ⟨id, sp⟩ := p
    obtain ⟨hclauses, hpending, -⟩ := pick_frame hpick
    obtain ⟨hid, hsp⟩ := hs.pick hpick
    rw [select_of_pick hpick] at hselect hsize
    obtain rfl := Option.some.inj hselect
    have hapart : Apart V σ sp :=
      ⟨by rw [hclauses]; exact h.clauses, by rw [hpending]; exact h.answers⟩
    exact hapart.activate hP hrel hV hσ hsp hid hsize

/-- A search whose clauses have a property that no inference leaves. Its answers have no
variables of the kind `V`, unless names have run out. -/
def Answering (P : Clause → Prop) (V : Symbol → Prop) (σ τ : Symbols) (s : Saturation) : Prop :=
  σ ≤ τ ∧ Within P s ∧ (τ.size < UInt32.size → Apart V σ s)

theorem invariant_answering (hP : Deductive σ P) (hrel : ∀ c, P c → c.RelationsIn σ)
    (hV : ∀ x, V x → σ.Knows x) : Invariant (Answering P V σ) where
  mono hle h :=
    ⟨h.1.trans hle, h.2.1, fun hsize => h.2.2 ((Symbols.size_le hle).trans_lt hsize)⟩
  drained h hrest _ :=
    ⟨h.1, ⟨h.2.1.clauses, fun f hf => h.2.1.pending f (hrest f hf), h.2.1.active, h.2.1.byWeight,
      h.2.1.byAge⟩, fun hsize => ⟨(h.2.2 hsize).clauses,
        fun c hc => (h.2.2 hsize).answers c (hrest _ hc)⟩⟩
  select {s _ t} h hselect := by
    have hle := grows_select s t
    refine ⟨h.1.trans hle, h.2.1.select hP h.1 hselect, fun hsize => ?_⟩
    have hapart := h.2.2 ((Symbols.size_le hle).trans_lt hsize)
    exact hapart.select hP hrel hV h.1 h.2.1 hselect hsize

/-- Answers among the clauses at the start are told as they are. -/
theorem answering_start (hP : Deductive t.symbols P) (hrel : ∀ c, P c → c.RelationsIn t.symbols)
    (hV : ∀ x, V x → t.symbols.Knows x) (hcs : ∀ c ∈ cs, P c)
    (hanswer : ∀ c ∈ cs, c.isAnswer t.symbols = true → c.Avoids V) (limits : Limits) :
    Answering P V t.symbols (start cs limits t).2.symbols (start cs limits t).1 := by
  refine ⟨grows_insertAll cs _ t, Within.start hP hcs limits t, fun hsize => ?_⟩
  have hinit : Apart V t.symbols (init limits) :=
    ⟨fun c hc => by simp [init] at hc, fun c hc => by simp [init] at hc⟩
  exact hinit.insertAll hV le_rfl (fun c hc => ⟨hrel c (hcs c hc), hanswer c hc⟩) hsize

section Listening

variable {β γ : Type} {listen : β → Clause → SessionM (β × Option γ)} {R : Clause → Prop}
  {Good : β → Prop} {Yield : β → γ → Prop} {G : Prop} {Inv : Symbols → Saturation → Prop}

/-- The listener keeps up `Good` as long as it hears clauses of `R`, and with whatever
it asks to stop, its state has the property `Yield`. -/
def Hears (listen : β → Clause → SessionM (β × Option γ)) (R : Clause → Prop) (Good : β → Prop)
    (Yield : β → γ → Prop) : Prop :=
  ∀ b c t, Good b → R c →
    Good (listen b c t).1.1 ∧ ∀ g, (listen b c t).1.2 = some g → Yield (listen b c t).1.1 g

/-- What a listener is left with when it hears clauses of `R` only, and contradictions
only if `G` is true. -/
def Yields (Yield : β → γ → Prop) (G : Prop) (b : β) : Report γ → Prop
  | .found g => Yield b g
  | .ended e => e = .contradiction → G

theorem Hears.drain (h : Hears listen R Good Yield) {fs : List Finding}
    (hfs : ∀ f ∈ fs, f = .contradiction ∧ G ∨ ∃ c, f = .answer c ∧ R c) {b : β} (hb : Good b)
    (t : Session) :
    Good (drain listen fs b t).1.2.2 ∧
      ∀ r, (drain listen fs b t).1.1 = some r → Yields Yield G (drain listen fs b t).1.2.2 r := by
  induction fs generalizing b t with
  | nil => exact ⟨hb, nofun⟩
  | cons f fs ih =>
    obtain ⟨⟨rfl, hG⟩ | ⟨c, rfl, hc⟩, hrest⟩ := List.forall_mem_cons.mp hfs
    · refine ⟨hb, ?_⟩
      rintro r ⟨⟩
      exact fun _ => hG
    · obtain ⟨hgood, hyield⟩ := h b c t hb hc
      cases hstop : (listen b c t).1.2 with
      | none =>
        rw [drain_answer_of_none hstop]
        exact ih hrest hgood _
      | some g =>
        rw [drain_answer_of_some hstop]
        refine ⟨hgood, ?_⟩
        rintro r ⟨⟩
        exact hyield g hstop

/-- The listener of a search with this invariant hears clauses of `R` only, and
contradictions only if `G` is true, unless names have run out. -/
def Tells (Inv : Symbols → Saturation → Prop) (R : Clause → Prop) (G : Prop) : Prop :=
  ∀ τ s, Inv τ s → τ.size < UInt32.size →
    ∀ f ∈ s.pending, f = .contradiction ∧ G ∨ ∃ c, f = .answer c ∧ R c

theorem Tells.imp {G' : Prop} (h : Tells Inv R G) (hG : G → G') : Tells Inv R G' :=
  fun τ s hs hsize f hf => (h τ s hs hsize f hf).imp_left (And.imp_right hG)

theorem tells_answering (P : Clause → Prop) (V : Symbol → Prop) (σ : Symbols) :
    Tells (Answering P V σ) (fun c => P c ∧ c.isAnswer σ = true ∧ c.Avoids V) (P .empty) := by
  rintro τ s ⟨-, hwithin, hapart⟩ hsize (_ | c) hf
  · exact .inl ⟨rfl, hwithin.pending _ hf⟩
  · exact .inr ⟨c, rfl, hwithin.pending _ hf, (hapart hsize).answers c hf⟩

/-- However far a search goes, its listener stays good, and what it is interrupted with
is as it should be. -/
theorem Hears.pursueFor (h : Hears listen R Good Yield) (hInv : Invariant Inv)
    (htells : Tells Inv R G) (hlisten : ∀ b c, Grows (listen b c)) (hs : Inv t.symbols s) (n : Nat)
    {b : β} (hb : Good b) (hsize : (pursueFor listen n s b t).2.symbols.size < UInt32.size) :
    Good (pursueFor listen n s b t).1.2.2 ∧
      Yields Yield G (pursueFor listen n s b t).1.2.2 (pursueFor listen n s b t).1.1 := by
  have hheard {s : Saturation} {b b' : β} {t t' : Session} {report : Option (Report γ)}
      {rest : List Finding}
      (hdrain : Saturation.drain listen s.pending b t = ((report, rest, b'), t')) (hs : Inv t.symbols s)
      (hb : Good b) (hsize : t'.symbols.size < UInt32.size) :
      Good b' ∧ ∀ r, report = some r → Yields Yield G b' r := by
    have hstart := (Symbols.size_le (le_of_drain hlisten hdrain)).trans_lt hsize
    have hdrained := h.drain (htells _ s hs hstart) hb t
    rwa [hdrain] at hdrained
  have hrun := pursuit listen n s b t
  generalize Saturation.pursueFor listen n s b t = r at hrun hsize ⊢
  induction hrun with
  | report hdrain => exact (hheard hdrain hs hb hsize).imp_right fun hyield => hyield _ rfl
  | exhausted hdrain | timedOut hdrain _ => exact ⟨(hheard hdrain hs hb hsize).1, nofun⟩
  | saturated hdrain =>
    exact ⟨(hheard hdrain hs hb ((Symbols.size_le (grows_select _ _)).trans_lt hsize)).1, nofun⟩
  | selected hdrain _ hselect hrest ih =>
    have hle := (grows_select _ _).trans (hrest.le hlisten)
    have hgood := (hheard hdrain hs hb ((Symbols.size_le hle).trans_lt hsize)).1
    exact ih (hInv.select (hInv.drain hlisten hs hdrain nofun) hselect) hgood hsize

end Listening

end Saturation

end Entailment
