import Entailment.Proofs.Polarity
import Entailment.Proofs.Verdict

/-! Two conversions of one formula, in sessions that number its names differently
and have other counters, take the same steps. A new symbol gets the next number
of its table, so the shift of the numbers that each table has still to issue
makes the one run the other. -/
namespace Entailment

variable {π : Symbol → Symbol}

namespace Symbols

variable {σ σ' : Symbols}

/-- The numbers that the first table issues next go to those that the second one
issues next, as long as symbols are 32-bit words. -/
def Aligned (π : Symbol → Symbol) (σ σ' : Symbols) : Prop :=
  ∀ i, σ.size + i < UInt32.size → π ⟨σ.size + i⟩ = ⟨σ'.size + i⟩

section Fresh

variable (h : Aligned π σ σ') (hsize : σ.size < UInt32.size) (hsize' : σ'.size < UInt32.size)
  (base base' : String) (counter counter' : UInt32)

include h hsize hsize'

theorem Aligned.fresh_eq :
    (fresh base' counter' σ').1.1 = π (fresh base counter σ).1.1 := by
  rw [fresh_eq_size hsize, fresh_eq_size hsize']
  exact (h 0 hsize).symm

theorem Aligned.fresh : Aligned π (fresh base counter σ).2 (fresh base' counter' σ').2 := by
  intro i hi
  rw [size_fresh hsize] at hi ⊢
  rw [size_fresh hsize', Nat.add_assoc, Nat.add_assoc]
  exact h (1 + i) (by omega)

end Fresh

/-- `m` on the symbols of a list and, outside of it, the numbers that one table
issues next to those that the other one does. -/
def carry (m : Symbol → Symbol) (as : List Symbol) (σ σ' : Symbols) (a : Symbol) : Symbol :=
  if a ∈ as then m a
  else if σ.size ≤ a.id ∧ a.id < UInt32.size then ⟨a.id - σ.size + σ'.size⟩
  else ⟨a.id + UInt32.size + σ'.size⟩

theorem carry_of_mem {m : Symbol → Symbol} {as : List Symbol} {a : Symbol} (ha : a ∈ as) :
    carry m as σ σ' a = m a :=
  if_pos ha

theorem not_knows_carry (m : Symbol → Symbol) {as : List Symbol} {a : Symbol} (ha : a ∉ as)
    (σ σ' : Symbols) : ¬ σ'.Knows (carry m as σ σ' a) := by
  unfold carry Knows
  rw [if_neg ha]
  split <;> simp

section Carry

variable {m : Symbol → Symbol} {as : List Symbol} (h : σ.Namesakes σ' m as)

include h

theorem Namesakes.carry_injective : Function.Injective (carry m as σ σ') := by
  intro a b hab
  by_cases ha : a ∈ as <;> by_cases hb : b ∈ as
  · rw [carry_of_mem ha, carry_of_mem hb] at hab
    exact h.injOn ha hb hab
  · refine absurd ?_ (not_knows_carry m hb σ σ')
    rw [← hab, carry_of_mem ha]
    exact h.known' a ha
  · refine absurd ?_ (not_knows_carry m ha σ σ')
    rw [hab, carry_of_mem hb]
    exact h.known' b hb
  · have hid := congrArg Symbol.id hab
    obtain ⟨i⟩ := a
    obtain ⟨j⟩ := b
    simp only [carry, if_neg ha, if_neg hb] at hid
    refine congrArg Symbol.mk ?_
    split at hid <;> split at hid <;> dsimp only at * <;> omega

theorem Namesakes.aligned_carry : Aligned (carry m as σ σ') σ σ' := by
  intro i hi
  have hnew : ⟨σ.size + i⟩ ∉ as := fun hmem =>
    absurd (h.known _ hmem) (Nat.not_lt.mpr (Nat.le_add_right _ i))
  unfold carry
  rw [if_neg hnew, if_pos ⟨Nat.le_add_right _ i, hi⟩, Nat.add_sub_cancel_left, Nat.add_comm]

end Carry

end Symbols

/-- Both states have seen the same names and issue the same names next. -/
structure BinderState.Aligned (π : Symbol → Symbol) (s s' : BinderState) : Prop where
  seen : s'.seen = s.seen.map π
  next : Symbols.Aligned π s.symbols s'.symbols

theorem BinderState.Aligned.bind (hπ : Function.Injective π) {s s' : BinderState}
    (h : Aligned π s s') (x : Symbol) (hsize : (bind x s).2.symbols.size < UInt32.size)
    (hsize' : (bind (π x) s').2.symbols.size < UInt32.size) :
    (BinderState.bind (π x) s').1 = π (BinderState.bind x s).1 ∧
      Aligned π (BinderState.bind x s).2 (BinderState.bind (π x) s').2 := by
  have hfirst := Formula.size_lt_of_bind hsize
  have hfirst' := Formula.size_lt_of_bind hsize'
  obtain ⟨σ, counter, seen⟩ := s
  obtain ⟨σ', counter', seen'⟩ := s'
  obtain rfl : seen' = seen.map π := h.seen
  simp only [BinderState.bind, contains_map_iff hπ]
  split
  · have hname := h.next.fresh_eq hfirst hfirst' (baseName (σ.name x) ++ "_")
      (baseName (σ'.name (π x)) ++ "_") counter counter'
    refine ⟨hname, ?_, h.next.fresh hfirst hfirst' _ _ _ _⟩
    exact congrArg (· :: seen.map π) hname
  · exact ⟨rfl, rfl, h.next⟩

namespace Formula

theorem lookup_map {β γ : Type} (hπ : Function.Injective π) (g : β → γ) (ρ : List (Symbol × β))
    (x : Symbol) : (ρ.map (Prod.map π g)).lookup (π x) = (ρ.lookup x).map g := by
  induction ρ with
  | nil => rfl
  | cons p ρ ih =>
    rw [List.map_cons]
    obtain ⟨y, b⟩ := p
    rw [Prod.map_apply, Symbol.lookup_cons, Symbol.lookup_cons, ih]
    by_cases hxy : x = y
    · rw [if_pos hxy, if_pos (congrArg π hxy), Option.map_some]
    · rw [if_neg hxy, if_neg (hπ.ne hxy)]

theorem renamed_map (hπ : Function.Injective π) (ρ : List (Symbol × Symbol)) (x : Symbol) :
    renamed (ρ.map (Prod.map π π)) (π x) = π (renamed ρ x) := by
  unfold renamed
  rw [lookup_map hπ]
  cases ρ.lookup x <;> rfl

theorem witnessed_map (hπ : Function.Injective π) (ρ : List (Symbol × Term)) (x : Symbol) :
    witnessed (ρ.map (Prod.map π (Term.relabel π))) (π x) = (witnessed ρ x).relabel π := by
  unfold witnessed
  rw [lookup_map hπ]
  cases ρ.lookup x <;> rfl

theorem rename_relabel (hπ : Function.Injective π) (ρ : List (Symbol × Symbol)) (t : Term) :
    (t.relabel π).rename (renamed (ρ.map (Prod.map π π))) = (t.rename (renamed ρ)).relabel π := by
  refine (Term.relabel_subst fun x _ => ?_).symm
  rw [renamed_map hπ]
  rfl

theorem subst_relabel (hπ : Function.Injective π) (ρ : List (Symbol × Term)) (t : Term) :
    (t.relabel π).subst (witnessed (ρ.map (Prod.map π (Term.relabel π)))) =
      (t.subst (witnessed ρ)).relabel π :=
  (Term.relabel_subst fun x _ => witnessed_map hπ ρ x).symm

theorem distinctBelow_relabel (hπ : Function.Injective π) {f : Formula}
    {ρ : List (Symbol × Symbol)} {s s' : BinderState} (h : s.Aligned π s')
    (hsize : (f.distinctBelow ρ s).2.symbols.size < UInt32.size)
    (hsize' : ((f.relabel π).distinctBelow (ρ.map (Prod.map π π)) s').2.symbols.size <
      UInt32.size) :
    ((f.relabel π).distinctBelow (ρ.map (Prod.map π π)) s').1 = (f.distinctBelow ρ s).1.relabel π ∧
      (f.distinctBelow ρ s).2.Aligned π
        ((f.relabel π).distinctBelow (ρ.map (Prod.map π π)) s').2 := by
  induction f generalizing ρ s s' with
  | rel r args =>
    refine ⟨congrArg (rel (π r)) ?_, h⟩
    rw [List.map_map, List.map_map]
    exact List.map_congr_left fun t _ => rename_relabel hπ ρ t
  | eq l r =>
    exact ⟨congrArg₂ eq (rename_relabel hπ ρ l) (rename_relabel hπ ρ r), h⟩
  | not f ih =>
    obtain ⟨hform, hstate⟩ := ih h hsize hsize'
    exact ⟨congrArg not hform, hstate⟩
  | and f g ihf ihg | or f g ihf ihg | imp f g ihf ihg | iff f g ihf ihg =>
    obtain ⟨hleft, hmiddle⟩ := ihf h (size_lt_of_distinctBelow (f := g) hsize)
      (size_lt_of_distinctBelow (f := g.relabel π) hsize')
    obtain ⟨hright, hstate⟩ := ihg hmiddle hsize hsize'
    exact ⟨congrArg₂ _ hleft hright, hstate⟩
  | all x f ih | ex x f ih =>
    obtain ⟨hname, hbound⟩ := h.bind hπ x (size_lt_of_distinctBelow (f := f) hsize)
      (size_lt_of_distinctBelow (f := f.relabel π) hsize')
    have hbody := ih (ρ := (x, (BinderState.bind x s).1) :: ρ) hbound hsize
    rw [List.map_cons, Prod.map_apply, ← hname] at hbody
    obtain ⟨hform, hstate⟩ := hbody hsize'
    exact ⟨congrArg₂ _ hname hform, hstate⟩

theorem relabel_skolemTerm (c : Symbol) (xs : List Symbol) :
    (skolemTerm c xs).relabel π = skolemTerm (π c) (xs.map π) := by
  cases xs with
  | nil => rfl
  | cons x xs => simp [skolemTerm, Function.comp_def]

theorem skolemBelow_relabel (hπ : Function.Injective π) {f : Formula} (xs : List Symbol)
    (ρ : List (Symbol × Term)) {s s' : SkolemState} (h : Symbols.Aligned π s.symbols s'.symbols)
    (hsize : (f.skolemBelow xs ρ s).2.symbols.size < UInt32.size)
    (hsize' : ((f.relabel π).skolemBelow (xs.map π) (ρ.map (Prod.map π (Term.relabel π))) s').2.symbols.size <
      UInt32.size) :
    ((f.relabel π).skolemBelow (xs.map π) (ρ.map (Prod.map π (Term.relabel π))) s').1 =
        (f.skolemBelow xs ρ s).1.relabel π ∧
      Symbols.Aligned π (f.skolemBelow xs ρ s).2.symbols
        ((f.relabel π).skolemBelow (xs.map π) (ρ.map (Prod.map π (Term.relabel π))) s').2.symbols := by
  induction f generalizing xs ρ s s' with
  | rel r args =>
    refine ⟨congrArg (rel (π r)) ?_, h⟩
    rw [List.map_map, List.map_map]
    exact List.map_congr_left fun t _ => subst_relabel hπ ρ t
  | eq l r => exact ⟨congrArg₂ eq (subst_relabel hπ ρ l) (subst_relabel hπ ρ r), h⟩
  | not f ih =>
    obtain ⟨hform, hstate⟩ := ih xs ρ h hsize hsize'
    exact ⟨congrArg not hform, hstate⟩
  | and f g ihf ihg | or f g ihf ihg | imp f g ihf ihg | iff f g ihf ihg =>
    obtain ⟨hleft, hmiddle⟩ := ihf xs ρ h
      ((Symbols.size_le (le_skolemBelow xs ρ g _)).trans_lt hsize)
      ((Symbols.size_le (le_skolemBelow _ _ (g.relabel π) _)).trans_lt hsize')
    obtain ⟨hright, hstate⟩ := ihg xs ρ hmiddle hsize hsize'
    exact ⟨congrArg₂ _ hleft hright, hstate⟩
  | all x f ih =>
    have hbody := ih (xs ++ [x]) ρ h hsize
    rw [List.map_append, List.map_singleton] at hbody
    obtain ⟨hform, hstate⟩ := hbody hsize'
    exact ⟨congrArg (all (π x)) hform, hstate⟩
  | ex x f ih =>
    rw [relabel, skolemBelow_ex] at hsize' ⊢
    rw [skolemBelow_ex] at hsize ⊢
    -- Aligned tables that have room for the Skolem name make the same one, up to `π`.
    have hfirst := (Symbols.size_le ((SkolemState.le_term xs s).trans
      (le_skolemBelow _ _ f _))).trans_lt hsize
    have hfirst' := (Symbols.size_le ((SkolemState.le_term (xs.map π) s').trans
      (le_skolemBelow _ _ (f.relabel π) _))).trans_lt hsize'
    have hname : s'.symbol = π s.symbol := h.fresh_eq hfirst hfirst' _ _ _ _
    have hnext : Symbols.Aligned π (SkolemState.term xs s).2.symbols
        (SkolemState.term (xs.map π) s').2.symbols := h.fresh hfirst hfirst' _ _ _ _
    have hbody := ih xs ((x, skolemTerm s.symbol xs) :: ρ) hnext hsize
    rw [List.map_cons, Prod.map_apply, relabel_skolemTerm, ← hname] at hbody
    exact hbody hsize'

end Formula

namespace Clausifier

variable {f : Formula} {k k' : Clausifier} {s s' : Session}

theorem skolemForm_relabel (hπ : Function.Injective π) {σ σ' : Symbols} (h : σ.Aligned π σ')
    (hsize : (skolemForm f k σ).2.symbols.size < UInt32.size)
    (hsize' : (skolemForm (f.relabel π) k' σ').2.symbols.size < UInt32.size) :
    (skolemForm (f.relabel π) k' σ').1 = (skolemForm f k σ).1.relabel π := by
  have hsizes := (Symbols.size_le (Formula.le_skolemBelow [] [] _ _)).trans_lt hsize
  have hsizes' := (Symbols.size_le (Formula.le_skolemBelow [] [] _ _)).trans_lt hsize'
  unfold skolemForm prepared at hsize' ⊢
  unfold prepared at hsizes'
  rw [Formula.nnf_basic_relabel] at hsize' hsizes' ⊢
  have hstart : BinderState.Aligned π ⟨σ, k.varCounter, []⟩ ⟨σ', k'.varCounter, []⟩ := ⟨rfl, h⟩
  obtain ⟨hform, hstate⟩ := Formula.distinctBelow_relabel hπ (ρ := []) hstart hsizes hsizes'
  rw [List.map_nil] at hform hstate
  rw [hform] at hsize' ⊢
  exact (Formula.skolemBelow_relabel hπ [] [] hstate.next hsize hsize').1

theorem sifted_relabel (hπ : Function.Injective π) {cs : List Clause} (hcs : ∀ c ∈ cs, c.Normal) :
    sifted (cs.map (Clause.relabel π)) = ⟨(sifted cs).clauses.map (Clause.relabel π)⟩ := by
  have hfilter : (cs.map (Clause.relabel π)).filter (!·.isTautology) =
      (cs.filter (!·.isTautology)).map (Clause.relabel π) := by
    rw [List.filter_map]
    refine congrArg _ (List.filter_congr fun c hc => ?_)
    rw [Function.comp_apply, Clause.isTautology_relabel hπ (hcs c hc)]
  unfold sifted
  rw [hfilter, Clause.distinct_map (S := Clause.Normal) ?_ fun c hc => hcs c (List.mem_filter.mp hc).1]
  exact fun c hc d hd => (Clause.relabel_inj hπ hc hd).mp

/-- A conversion of the relabelled formula, in any session and with any counters,
gives the relabelled clauses if the new symbols of the one go to those of the
other. -/
theorem clausify_relabel (hπ : Function.Injective π) (h : s.symbols.Aligned π s'.symbols)
    (hsize : (clausify f k s).2.symbols.size < UInt32.size)
    (hsize' : (clausify (f.relabel π) k' s').2.symbols.size < UInt32.size) {cs : ClauseSet}
    (hcs : (clausify f k s).1.1 = .ok cs) :
    (clausify (f.relabel π) k' s').1.1 = .ok ⟨cs.clauses.map (Clause.relabel π)⟩ := by
  have hvalid := validate_of_clausify hcs
  have hvalid' : (f.relabel π).validate = .ok () := by
    rw [Formula.validate_relabel hπ, hvalid]
    rfl
  rw [symbols_clausify_of_ok hvalid] at hsize
  rw [symbols_clausify_of_ok hvalid'] at hsize'
  rw [fst_clausify, hvalid] at hcs
  obtain ⟨ds, hds, rfl⟩ : ∃ ds, (skolemForm f k s.symbols).1.clauses false = .ok ds ∧
      sifted ds = cs := by
    cases hds : (skolemForm f k s.symbols).1.clauses false with
    | error e =>
      rw [hds] at hcs
      cases hcs
    | ok ds =>
      rw [hds] at hcs
      exact ⟨ds, rfl, Except.ok.inj hcs⟩
  rw [fst_clausify, hvalid', skolemForm_relabel hπ h hsize hsize', Formula.clauses_relabel, hds]
  exact congrArg Except.ok (sifted_relabel hπ fun c hc => (normal_of_skolemForm hds c hc).1)

/-- Every symbol of the clauses is one of the formula or new. Exchanging any other
one for a symbol of no table leaves the formula and so its clauses as they are. -/
theorem generated_of_clausify (hnames : ∀ a ∈ f.symbols, s.symbols.Knows a)
    (hsize : (clausify f k s).2.symbols.size < UInt32.size) {cs : ClauseSet}
    (hcs : (clausify f k s).1.1 = .ok cs) :
    Clause.Over (fun a => a ∈ f.symbols ∨ ¬ s.symbols.Knows a) cs.clauses := by
  intro c hc a ha
  by_contra hold
  rw [not_or, not_not] at hold
  obtain ⟨hmem, hknown⟩ := hold
  let b : Symbol := ⟨UInt32.size⟩
  have hall := knows_of_clausify (convertible_of_ok hnames hcs hsize) hcs
  have hunknown : ¬ (clausify f k s).2.symbols.Knows b := fun hb => absurd hb hsize.not_gt
  have hle := le_clausify f k s
  have hfix : f.relabel (Equiv.swap a b) = f := by
    refine (Formula.relabel_congr fun d hd => ?_).trans (Formula.relabel_id f)
    refine Equiv.swap_apply_of_ne_of_ne (fun h => hmem (h ▸ hd)) fun h => hunknown ?_
    exact h ▸ (hnames d hd).mono hle
  have haligned : s.symbols.Aligned (Equiv.swap a b) s.symbols := by
    intro i hi
    refine Equiv.swap_apply_of_ne_of_ne (fun h => ?_) fun h => ?_
    · exact absurd hknown (h ▸ Nat.not_lt.mpr (Nat.le_add_right _ i))
    · exact hi.ne (congrArg Symbol.id h)
  have hsize' : (clausify (f.relabel (Equiv.swap a b)) k s).2.symbols.size < UInt32.size := by
    rwa [hfix]
  have hsame := clausify_relabel (Equiv.swap a b).injective haligned hsize hsize' hcs
  rw [hfix, hcs, Except.ok.injEq] at hsame
  have hmoved : c.relabel (Equiv.swap a b) ∈ cs.clauses := by
    rw [hsame]
    exact List.mem_map_of_mem hc
  refine hunknown (hall _ hmoved b ?_)
  have := Clause.mem_symbols_relabel (π := Equiv.swap a b) ha
  rwa [Equiv.swap_apply_left] at this

section Namesakes

variable {m : Symbol → Symbol} (h : s.symbols.Namesakes s'.symbols m f.symbols)

include h

/-- Where the one conversion succeeds, the other one gives the same clauses up to
the names that are made. -/
theorem exists_relabel_of_clausify (hsize : (clausify f k s).2.symbols.size < UInt32.size)
    (hsize' : (clausify (f.relabel m) k' s').2.symbols.size < UInt32.size) {cs : ClauseSet}
    (hcs : (clausify f k s).1.1 = .ok cs) :
    ∃ π : Symbol → Symbol, Function.Injective π ∧ (∀ a ∈ f.symbols, π a = m a) ∧
      Clause.Over (fun a => a ∈ f.symbols ∨ ¬ s.symbols.Knows a ∧ ¬ s'.symbols.Knows (π a))
        cs.clauses ∧
      (clausify (f.relabel m) k' s').1.1 = .ok ⟨cs.clauses.map (Clause.relabel π)⟩ := by
  let π := Symbols.carry m f.symbols s.symbols s'.symbols
  have hagree (a : Symbol) (ha : a ∈ f.symbols) : π a = m a := Symbols.carry_of_mem ha
  rw [← Formula.relabel_congr hagree] at hsize' ⊢
  refine ⟨π, h.carry_injective, hagree, fun c hc a ha => ?_,
    clausify_relabel h.carry_injective h.aligned_carry hsize hsize' hcs⟩
  by_cases hmem : a ∈ f.symbols
  · exact .inl hmem
  · have hnew := (generated_of_clausify h.known hsize hcs c hc a ha).resolve_left hmem
    exact .inr ⟨hnew, Symbols.not_knows_carry m hmem s.symbols s'.symbols⟩

theorem verdict_namesake : (f.relabel m).verdict = f.verdict.mapError (.relabel m) := by
  have hagree (a : Symbol) (ha : a ∈ f.symbols) :
      Symbols.carry m f.symbols s.symbols s'.symbols a = m a := Symbols.carry_of_mem ha
  rw [← Formula.relabel_congr hagree, Formula.verdict_relabel h.carry_injective]
  cases herror : f.verdict with
  | error e => exact congrArg Except.error (Formula.relabel_error_congr herror hagree)
  | ok => rfl

end Namesakes

/-- Conversion depends on the table of names and the counters only through the
names that it makes. Let `m` send the symbols of a formula to those of the same
names in another session. Either both conversions fail with the same error, or
both succeed, and one injective map, which is `m` on the symbols of the formula and
sends new symbols to new ones, makes each clause of the first the clause of the
second at its place. Symbols are 32-bit words, so both tables have to stay smaller
than `UInt32.size`. -/
theorem clausify_namesake {m : Symbol → Symbol} (h : s.symbols.Namesakes s'.symbols m f.symbols)
    (hsize : (clausify f k s).2.symbols.size < UInt32.size)
    (hsize' : (clausify (f.relabel m) k' s').2.symbols.size < UInt32.size) :
    (∃ e, (clausify f k s).1.1 = .error e ∧
      (clausify (f.relabel m) k' s').1.1 = .error (e.relabel m) ∧
      (e.relabel m).message s'.symbols = e.message s.symbols) ∨
    ∃ cs cs' : ClauseSet, ∃ π : Symbol → Symbol, (clausify f k s).1.1 = .ok cs ∧
      (clausify (f.relabel m) k' s').1.1 = .ok cs' ∧ Function.Injective π ∧
      (∀ a ∈ f.symbols, π a = m a) ∧
      Clause.Over (fun a => a ∈ f.symbols ∨ ¬ s.symbols.Knows a ∧ ¬ s'.symbols.Knows (π a))
        cs.clauses ∧
      cs'.clauses = cs.clauses.map (Clause.relabel π) := by
  cases hcs : (clausify f k s).1.1 with
  | error e =>
    have herror := clausify_eq_error_iff.mp hcs
    refine .inl ⟨e, rfl, clausify_eq_error_iff.mpr ?_, Formula.message_relabel_error herror h⟩
    rw [verdict_namesake h, herror]
    rfl
  | ok cs =>
    obtain ⟨π, hπ, hagree, hnew, hcs'⟩ := exists_relabel_of_clausify h hsize hsize' hcs
    exact .inr ⟨cs, _, π, rfl, hcs', hπ, hagree, hnew, rfl⟩

/-- The names `P`, `x` and `y` where they have the numbers 3, 2 and 0. -/
def reordered : Symbol → Symbol
  | ⟨0⟩ => ⟨3⟩
  | ⟨1⟩ => ⟨2⟩
  | ⟨i⟩ => ⟨i - 2⟩

theorem clausify_namesake_reordered :
    (Session.knowing ["P", "x", "y"]).symbols.Namesakes
      (Session.knowing ["y", "$sk1", "x", "P"]).symbols reordered noTopButBottom.symbols ∧
    ∃ cs cs' : ClauseSet, ∃ π : Symbol → Symbol,
      (clausify noTopButBottom new (.knowing ["P", "x", "y"])).1.1 = .ok cs ∧
      (clausify (noTopButBottom.relabel reordered) ⟨8, 0⟩
        (.knowing ["y", "$sk1", "x", "P"])).1.1 = .ok cs' ∧
      Function.Injective π ∧ (∀ a ∈ noTopButBottom.symbols, π a = reordered a) ∧
      Clause.Over (fun a => a ∈ noTopButBottom.symbols ∨
        ¬ (Session.knowing ["P", "x", "y"]).symbols.Knows a ∧
          ¬ (Session.knowing ["y", "$sk1", "x", "P"]).symbols.Knows (π a)) cs.clauses ∧
      cs'.clauses = cs.clauses.map (Clause.relabel π) := by
  have h : (Session.knowing ["P", "x", "y"]).symbols.Namesakes
      (Session.knowing ["y", "$sk1", "x", "P"]).symbols reordered noTopButBottom.symbols :=
    ⟨by decide, by decide, by decide⟩
  have hok : (clausify noTopButBottom new (.knowing ["P", "x", "y"])).1.1 =
      .ok noTopButBottomClauses := by decide
  refine ⟨h, (clausify_namesake h (by decide) (by decide)).resolve_left ?_⟩
  rintro ⟨e, he, -⟩
  rw [hok] at he
  cases he

end Clausifier

end Entailment