import Entailment.Formula.Binder
import Entailment.Proofs.FreeVariables
import Entailment.Proofs.NormalForm

/-! Making binders distinct is a renaming of bound variables: no name is bound
twice in the result, and truth and free variables stay the same. -/
namespace Entailment

universe u

namespace Formula

/-- The names at the quantifiers, from left to right. -/
def binders : Formula → List Symbol
  | .rel .. | .eq .. => []
  | .not f => f.binders
  | .and f g | .or f g | .imp f g | .iff f g => f.binders ++ g.binders
  | .all x f | .ex x f => x :: f.binders

theorem mem_symbols_of_mem_binders {x : Symbol} {f : Formula} (h : x ∈ f.binders) :
    x ∈ f.symbols := by
  induction f with
  | rel r args | eq l r => cases h
  | not f ih => exact ih h
  | and f g ihf ihg | or f g ihf ihg | imp f g ihf ihg | iff f g ihf ihg =>
    rw [binders, List.mem_append] at h
    rw [symbols, List.mem_append]
    exact h.imp ihf ihg
  | all y f ih | ex y f ih =>
    rw [binders, List.mem_cons] at h
    rw [symbols, List.mem_cons]
    exact h.imp id ih

theorem renamed_cons (x y z : Symbol) (ρ : List (Symbol × Symbol)) :
    renamed ((x, y) :: ρ) z = if z = x then y else renamed ρ z := by
  unfold renamed
  rw [Symbol.lookup_cons]
  split <;> rfl

theorem renamed_cases (ρ : List (Symbol × Symbol)) (x : Symbol) :
    renamed ρ x = x ∨ ∃ p ∈ ρ, renamed ρ x = p.2 := by
  unfold renamed
  cases h : ρ.lookup x with
  | none => exact .inl rfl
  | some y => exact .inr ⟨_, Symbol.mem_of_lookup h, rfl⟩

end Formula

namespace BinderState

variable {x : Symbol} {s : BinderState}

theorem le_bind (x : Symbol) (s : BinderState) : s.symbols ≤ (bind x s).2.symbols := by
  obtain ⟨σ, counter, seen⟩ := s
  simp only [bind]
  split
  · exact Symbols.le_fresh _ _ _
  · exact le_refl σ

theorem seen_bind (x : Symbol) (s : BinderState) :
    (bind x s).2.seen = (bind x s).1 :: s.seen := by
  obtain ⟨σ, counter, seen⟩ := s
  simp only [bind]
  split <;> rfl

theorem knows_bind (hx : s.symbols.Knows x) : (bind x s).2.symbols.Knows (bind x s).1 := by
  obtain ⟨σ, counter, seen⟩ := s
  simp only [bind]
  split
  · exact Symbols.knows_fresh _ _ _
  · exact hx

/-- A quantifier keeps its name if no other one had it before, and else gets one
that nothing had before. -/
theorem bind_cases (hsize : s.symbols.size < UInt32.size) :
    ((bind x s).1 = x ∧ x ∉ s.seen) ∨ ¬ s.symbols.Knows (bind x s).1 := by
  obtain ⟨σ, counter, seen⟩ := s
  simp only [bind]
  split
  · exact .inr (Symbols.not_knows_fresh hsize _ _)
  · rename_i hx
    exact .inl ⟨rfl, fun hmem => hx (List.contains_iff_mem.mpr hmem)⟩

end BinderState

namespace Formula

variable {ρ : List (Symbol × Symbol)} {s : BinderState}

theorem le_distinctBelow (ρ : List (Symbol × Symbol)) (f : Formula) (s : BinderState) :
    s.symbols ≤ (f.distinctBelow ρ s).2.symbols := by
  induction f generalizing ρ s with
  | rel r args | eq l r => exact le_refl s.symbols
  | not f ih => exact ih ρ s
  | and f g ihf ihg | or f g ihf ihg | imp f g ihf ihg | iff f g ihf ihg =>
    exact le_trans (ihf ρ s) (ihg ρ (f.distinctBelow ρ s).2)
  | all x f ih | ex x f ih =>
    exact le_trans (BinderState.le_bind x s) (ih _ (BinderState.bind x s).2)

theorem size_lt_of_distinctBelow {f : Formula}
    (hsize : (f.distinctBelow ρ s).2.symbols.size < UInt32.size) :
    s.symbols.size < UInt32.size :=
  (Symbols.size_le (le_distinctBelow ρ f s)).trans_lt hsize

theorem size_lt_of_bind {x : Symbol} (hsize : (BinderState.bind x s).2.symbols.size < UInt32.size) :
    s.symbols.size < UInt32.size :=
  (Symbols.size_le (BinderState.le_bind x s)).trans_lt hsize

/-- The names that were seen are those seen before and the new binders. -/
theorem seen_distinctBelow (ρ : List (Symbol × Symbol)) (f : Formula) (s : BinderState) :
    (f.distinctBelow ρ s).2.seen = (f.distinctBelow ρ s).1.binders.reverse ++ s.seen := by
  induction f generalizing ρ s with
  | rel r args | eq l r => rfl
  | not f ih => exact ih ρ s
  | and f g ihf ihg | or f g ihf ihg | imp f g ihf ihg | iff f g ihf ihg =>
    change (g.distinctBelow ρ (f.distinctBelow ρ s).2).2.seen =
      ((f.distinctBelow ρ s).1.binders ++
        (g.distinctBelow ρ (f.distinctBelow ρ s).2).1.binders).reverse ++ s.seen
    rw [ihg, ihf, List.reverse_append, List.append_assoc]
  | all x f ih | ex x f ih =>
    change (f.distinctBelow ((x, (BinderState.bind x s).1) :: ρ) (BinderState.bind x s).2).2.seen =
      ((BinderState.bind x s).1 :: (f.distinctBelow ((x, (BinderState.bind x s).1) :: ρ)
        (BinderState.bind x s).2).1.binders).reverse ++ s.seen
    rw [ih, BinderState.seen_bind, List.reverse_cons, List.append_assoc]
    rfl

theorem isNnf_distinctBelow {f : Formula} (h : f.IsNnf) (ρ : List (Symbol × Symbol))
    (s : BinderState) : (f.distinctBelow ρ s).1.IsNnf := by
  induction h generalizing ρ s with
  | rel r args => exact .rel _ _
  | eq l r => exact .eq _ _
  | notRel r args => exact .notRel _ _
  | notEq l r => exact .notEq _ _
  | and _ _ ihf ihg => exact .and (ihf ρ s) (ihg ρ _)
  | or _ _ ihf ihg => exact .or (ihf ρ s) (ihg ρ _)
  | all x _ ih => exact .all _ (ih _ _)
  | ex x _ ih => exact .ex _ (ih _ _)

/-- All names are in the table, and inner variables have names of the quantifiers
that were seen. -/
structure Ready (ρ : List (Symbol × Symbol)) (f : Formula) (s : BinderState) : Prop where
  names : ∀ a ∈ f.symbols, s.symbols.Knows a
  seen : ∀ a ∈ s.seen, s.symbols.Knows a
  range : ∀ p ∈ ρ, p.2 ∈ s.seen

namespace Ready

variable {f g : Formula} {x : Symbol}

theorem knows_renamed (h : Ready ρ f s) (hx : s.symbols.Knows x) :
    s.symbols.Knows (renamed ρ x) := by
  rcases renamed_cases ρ x with heq | ⟨p, hp, heq⟩
  · rw [heq]
    exact hx
  · rw [heq]
    exact h.seen _ (h.range p hp)

theorem knows_rename (h : Ready ρ f s) {t : Term} (ht : ∀ a ∈ t.symbols, s.symbols.Knows a)
    {a : Symbol} (ha : a ∈ (t.rename (renamed ρ)).symbols) : s.symbols.Knows a := by
  rcases Term.mem_symbols_subst ha with ha | ⟨x, hx, ha⟩
  · exact ht a ha
  · rw [Term.mem_symbols_var.mp ha]
    exact h.knows_renamed (ht x (Term.mem_symbols_of_hasVar hx))

theorem of_symbols (h : Ready ρ f s) (hg : ∀ a ∈ g.symbols, a ∈ f.symbols) : Ready ρ g s :=
  ⟨fun a ha => h.names a (hg a ha), h.seen, h.range⟩

/-- The second operand of a connective is ready after the first one. -/
theorem next (h : Ready ρ g s)
    (hknown : ∀ a ∈ (f.distinctBelow ρ s).1.symbols, (f.distinctBelow ρ s).2.symbols.Knows a) :
    Ready ρ g (f.distinctBelow ρ s).2 where
  names a ha := (h.names a ha).mono (le_distinctBelow ρ f s)
  seen a ha := by
    rw [seen_distinctBelow, List.mem_append, List.mem_reverse] at ha
    rcases ha with ha | ha
    · exact hknown a (mem_symbols_of_mem_binders ha)
    · exact (h.seen a ha).mono (le_distinctBelow ρ f s)
  range p hp := by
    rw [seen_distinctBelow]
    exact List.mem_append_right _ (h.range p hp)

/-- The body of a quantifier is ready once the quantifier has its name. -/
theorem bind (hx : s.symbols.Knows x) (h : Ready ρ f s) :
    Ready ((x, (BinderState.bind x s).1) :: ρ) f (BinderState.bind x s).2 where
  names a ha := (h.names a ha).mono (BinderState.le_bind x s)
  seen a ha := by
    rw [BinderState.seen_bind, List.mem_cons] at ha
    rcases ha with rfl | ha
    · exact BinderState.knows_bind hx
    · exact (h.seen a ha).mono (BinderState.le_bind x s)
  range p hp := by
    rw [BinderState.seen_bind]
    rcases List.mem_cons.mp hp with rfl | hp
    · exact List.mem_cons_self
    · exact List.mem_cons_of_mem _ (h.range p hp)

end Ready

theorem knows_distinctBelow {f : Formula} (h : Ready ρ f s) :
    ∀ a ∈ (f.distinctBelow ρ s).1.symbols, (f.distinctBelow ρ s).2.symbols.Knows a := by
  induction f generalizing ρ s with
  | rel r args =>
    intro a ha
    rcases List.mem_cons.mp ha with rfl | ha
    · exact h.names a List.mem_cons_self
    · obtain ⟨_, hmem, ha⟩ := Term.mem_symbolsAll.mp ha
      obtain ⟨t, ht, rfl⟩ := List.mem_map.mp hmem
      refine h.knows_rename (fun b hb => h.names b ?_) ha
      exact List.mem_cons_of_mem r (Term.mem_symbolsAll.mpr ⟨t, ht, hb⟩)
  | eq l r =>
    intro a ha
    rcases List.mem_append.mp ha with ha | ha
    · exact h.knows_rename (fun b hb => h.names b (List.mem_append_left _ hb)) ha
    · exact h.knows_rename (fun b hb => h.names b (List.mem_append_right _ hb)) ha
  | not f ih => exact ih (h.of_symbols fun _ ha => ha)
  | and f g ihf ihg | or f g ihf ihg | imp f g ihf ihg | iff f g ihf ihg =>
    have hf := ihf (h.of_symbols fun a ha => List.mem_append_left _ ha)
    have hg := ihg ((h.of_symbols fun a ha => List.mem_append_right _ ha).next hf)
    intro a ha
    rcases List.mem_append.mp ha with ha | ha
    · exact (hf a ha).mono (le_distinctBelow ρ g _)
    · exact hg a ha
  | all x f ih | ex x f ih =>
    have hx := h.names x List.mem_cons_self
    have hbody := (h.of_symbols fun a ha => List.mem_cons_of_mem x ha).bind hx
    intro a ha
    rcases List.mem_cons.mp ha with rfl | ha
    · exact (BinderState.knows_bind hx).mono (le_distinctBelow _ f _)
    · exact ih hbody a ha

/-- The name of a quantifier is new among those seen. -/
theorem Ready.bind_not_mem_seen {f : Formula} {x : Symbol} (h : Ready ρ f s)
    (hsize : s.symbols.size < UInt32.size) : (BinderState.bind x s).1 ∉ s.seen := by
  rcases BinderState.bind_cases hsize with ⟨heq, hx⟩ | hnew
  · rw [heq]
    exact hx
  · exact fun hmem => hnew (h.seen _ hmem)

theorem nodup_distinctBelow {f : Formula} (h : Ready ρ f s)
    (hsize : (f.distinctBelow ρ s).2.symbols.size < UInt32.size) (hseen : s.seen.Nodup) :
    (f.distinctBelow ρ s).2.seen.Nodup := by
  induction f generalizing ρ s with
  | rel r args | eq l r => exact hseen
  | not f ih => exact ih (h.of_symbols fun _ ha => ha) hsize hseen
  | and f g ihf ihg | or f g ihf ihg | imp f g ihf ihg | iff f g ihf ihg =>
    have hf := h.of_symbols fun a ha => List.mem_append_left _ ha
    have hg := (h.of_symbols fun a ha => List.mem_append_right _ ha).next (knows_distinctBelow hf)
    exact ihg hg hsize (ihf hf (size_lt_of_distinctBelow (f := g) hsize) hseen)
  | all x f ih | ex x f ih =>
    have hx := h.names x List.mem_cons_self
    have hbody := h.of_symbols fun a ha => List.mem_cons_of_mem x ha
    have hfirst := size_lt_of_bind (size_lt_of_distinctBelow (f := f) hsize)
    have hnodup : (BinderState.bind x s).2.seen.Nodup := by
      rw [BinderState.seen_bind]
      exact List.nodup_cons.mpr ⟨h.bind_not_mem_seen hfirst, hseen⟩
    exact ih (hbody.bind hx) hsize hnodup

/-- A quantifier does not capture a variable that it did not bind before. -/
theorem Ready.renamed_ne_bind {f : Formula} {x z : Symbol} (h : Ready ρ f s)
    (hsize : s.symbols.size < UInt32.size) (hz : f.Free z) (hzx : z ≠ x) :
    renamed ρ z ≠ (BinderState.bind x s).1 := by
  rcases BinderState.bind_cases hsize with ⟨heq, hx⟩ | hnew
  · rw [heq]
    rcases renamed_cases ρ z with hself | ⟨p, hp, hp2⟩
    · rw [hself]
      exact hzx
    · rw [hp2]
      exact fun hpx => hx (hpx ▸ h.range p hp)
  · intro hsame
    rw [← hsame] at hnew
    exact hnew (h.knows_renamed (h.names z (mem_symbols_of_free hz)))

theorem Ready.update_renamed {D : Type u} {f : Formula} {x : Symbol} (h : Ready ρ f s)
    (hsize : s.symbols.size < UInt32.size) (v : Symbol → D) (d : D) {z : Symbol}
    (hz : f.Free z) :
    Function.update v (BinderState.bind x s).1 d
        (renamed ((x, (BinderState.bind x s).1) :: ρ) z) =
      Function.update (fun z => v (renamed ρ z)) x d z := by
  rw [renamed_cons]
  by_cases hzx : z = x
  · rw [if_pos hzx, hzx, Function.update_self, Function.update_self]
  · rw [if_neg hzx, Function.update_of_ne (h.renamed_ne_bind hsize hz hzx),
      Function.update_of_ne hzx]

theorem holds_distinctBelow {D : Type u} {I : Interpretation D} {f : Formula} (h : Ready ρ f s)
    (hsize : (f.distinctBelow ρ s).2.symbols.size < UInt32.size) (v : Symbol → D) :
    (f.distinctBelow ρ s).1.Holds I v ↔ f.Holds I fun x => v (renamed ρ x) := by
  induction f generalizing ρ s v with
  | rel r args =>
    change I.rel r ((args.map (Term.rename (renamed ρ))).map (Term.eval I v)) ↔ _
    rw [List.map_map, Holds]
    exact iff_of_eq (congrArg (I.rel r) (List.map_congr_left fun t _ => Term.eval_subst I v _ t))
  | eq l r =>
    change (l.rename (renamed ρ)).eval I v = (r.rename (renamed ρ)).eval I v ↔ _
    rw [Term.rename, Term.rename, Term.eval_subst, Term.eval_subst]
    rfl
  | not f ih => exact not_congr (ih (h.of_symbols fun _ ha => ha) hsize v)
  | and f g ihf ihg | or f g ihf ihg | imp f g ihf ihg | iff f g ihf ihg =>
    have hf := h.of_symbols fun a ha => List.mem_append_left _ ha
    have hg := (h.of_symbols fun a ha => List.mem_append_right _ ha).next (knows_distinctBelow hf)
    simp only [Holds, ← ihf hf (size_lt_of_distinctBelow (f := g) hsize), ← ihg hg hsize]
    rfl
  | all x f ih =>
    have hbody := h.of_symbols fun a ha => List.mem_cons_of_mem x ha
    have hfirst := size_lt_of_bind (size_lt_of_distinctBelow (f := f) hsize)
    refine forall_congr' fun d => (ih (hbody.bind (h.names x List.mem_cons_self)) hsize _).trans ?_
    exact holds_congr_valuation fun z hz => hbody.update_renamed hfirst v d hz
  | ex x f ih =>
    have hbody := h.of_symbols fun a ha => List.mem_cons_of_mem x ha
    have hfirst := size_lt_of_bind (size_lt_of_distinctBelow (f := f) hsize)
    refine exists_congr fun d => (ih (hbody.bind (h.names x List.mem_cons_self)) hsize _).trans ?_
    exact holds_congr_valuation fun z hz => hbody.update_renamed hfirst v d hz

/-- Free occurrences stay free, under the names of the binders around them. -/
theorem freeList_distinctBelow {f : Formula} (h : Ready ρ f s)
    (hsize : (f.distinctBelow ρ s).2.symbols.size < UInt32.size) :
    (f.distinctBelow ρ s).1.freeList = f.freeList.map (renamed ρ) := by
  induction f generalizing ρ s with
  | rel r args =>
    change (args.map (Term.rename (renamed ρ))).flatMap Term.varList = _
    rw [freeList, List.flatMap_map, List.map_flatMap]
    exact List.flatMap_congr fun t _ => Term.varList_rename (renamed ρ) t
  | eq l r =>
    change (l.rename (renamed ρ)).varList ++ (r.rename (renamed ρ)).varList = _
    rw [Term.varList_rename, Term.varList_rename, freeList, List.map_append]
  | not f ih => exact ih (h.of_symbols fun _ ha => ha) hsize
  | and f g ihf ihg | or f g ihf ihg | imp f g ihf ihg | iff f g ihf ihg =>
    have hf := h.of_symbols fun a ha => List.mem_append_left _ ha
    have hg := (h.of_symbols fun a ha => List.mem_append_right _ ha).next (knows_distinctBelow hf)
    rw [freeList, List.map_append, ← ihf hf (size_lt_of_distinctBelow (f := g) hsize),
      ← ihg hg hsize]
    rfl
  | all x f ih | ex x f ih =>
    have hbody := h.of_symbols fun a ha => List.mem_cons_of_mem x ha
    have hfirst := size_lt_of_bind (size_lt_of_distinctBelow (f := f) hsize)
    have hrenamed := ih (hbody.bind (h.names x List.mem_cons_self)) hsize
    -- An occurrence gets the name of this quantifier exactly if it belongs to it.
    have hbound : ∀ z ∈ f.freeList,
        renamed ((x, (BinderState.bind x s).1) :: ρ) z = (BinderState.bind x s).1 ↔ z = x := by
      intro z hz
      rw [renamed_cons]
      split
      · rename_i hzx
        simp [hzx]
      · rename_i hzx
        exact iff_of_false (hbody.renamed_ne_bind hfirst (mem_freeList.mp hz) hzx) hzx
    change ((f.distinctBelow ((x, (BinderState.bind x s).1) :: ρ)
      (BinderState.bind x s).2).1.freeList.filter (· ≠ (BinderState.bind x s).1)) = _
    rw [hrenamed, List.filter_map, freeList]
    have hfilter : f.freeList.filter ((fun y => decide (y ≠ (BinderState.bind x s).1)) ∘
        renamed ((x, (BinderState.bind x s).1) :: ρ)) = f.freeList.filter (· ≠ x) := by
      refine List.filter_congr fun z hz => ?_
      simp [hbound z hz]
    rw [hfilter]
    refine List.map_congr_left fun z hz => ?_
    rw [renamed_cons, if_neg (by simpa using (List.mem_filter.mp hz).2)]

theorem free_distinctBelow {f : Formula} (h : Ready ρ f s)
    (hsize : (f.distinctBelow ρ s).2.symbols.size < UInt32.size) (y : Symbol) :
    (f.distinctBelow ρ s).1.Free y ↔ ∃ x, f.Free x ∧ renamed ρ x = y := by
  rw [← mem_freeList, freeList_distinctBelow h hsize, List.mem_map]
  exact exists_congr fun x => and_congr_left fun _ => mem_freeList

section Alpha

/-- The names of one variable in two formulas, below the binders that `ρ` pairs, the
innermost ones first. -/
def Corresponds : List (Symbol × Symbol) → Symbol → Symbol → Prop
  | [], x, y => x = y
  | (a, b) :: ρ, x, y => (x = a ∧ y = b) ∨ (x ≠ a ∧ y ≠ b ∧ Corresponds ρ x y)

namespace Corresponds

variable {x y z : Symbol}

theorem renamed_eq (h : Corresponds ρ x y) : renamed ρ x = y := by
  induction ρ with
  | nil => exact h
  | cons p ρ ih =>
    obtain ⟨a, b⟩ := p
    rw [renamed_cons]
    rcases h with ⟨hx, hy⟩ | ⟨hx, -, h⟩
    · rw [if_pos hx, hy]
    · rw [if_neg hx, ih h]

theorem self_renamed (h : Corresponds ρ x y) : Corresponds ρ x (renamed ρ x) := by
  rw [h.renamed_eq]
  exact h

theorem injective (hx : Corresponds ρ x z) (hy : Corresponds ρ y z) : x = y := by
  induction ρ with
  | nil => exact Eq.trans hx hy.symm
  | cons p ρ ih =>
    obtain ⟨a, b⟩ := p
    rcases hx with ⟨hxa, hzb⟩ | ⟨-, hzb, hx⟩
    · rcases hy with ⟨hya, -⟩ | ⟨-, hne, -⟩
      · rw [hxa, hya]
      · exact absurd hzb hne
    · rcases hy with ⟨-, heq⟩ | ⟨-, -, hy⟩
      · exact absurd heq hzb
      · exact ih hx hy

end Corresponds

/-- The formulas differ in the names of bound variables only, where `ρ` pairs the
binders around them. -/
inductive AlphaEq : List (Symbol × Symbol) → Formula → Formula → Prop
  | rel {ρ r args π} (h : ∀ t ∈ args, ∀ z, t.hasVar z = true → Corresponds ρ z (π z)) :
    AlphaEq ρ (.rel r args) (.rel r (args.map (Term.rename π)))
  | eq {ρ l r π} (h : ∀ t ∈ [l, r], ∀ z, t.hasVar z = true → Corresponds ρ z (π z)) :
    AlphaEq ρ (.eq l r) (.eq (l.rename π) (r.rename π))
  | not {ρ f f'} : AlphaEq ρ f f' → AlphaEq ρ (.not f) (.not f')
  | and {ρ f f' g g'} : AlphaEq ρ f f' → AlphaEq ρ g g' → AlphaEq ρ (.and f g) (.and f' g')
  | or {ρ f f' g g'} : AlphaEq ρ f f' → AlphaEq ρ g g' → AlphaEq ρ (.or f g) (.or f' g')
  | imp {ρ f f' g g'} : AlphaEq ρ f f' → AlphaEq ρ g g' → AlphaEq ρ (.imp f g) (.imp f' g')
  | iff {ρ f f' g g'} : AlphaEq ρ f f' → AlphaEq ρ g g' → AlphaEq ρ (.iff f g) (.iff f' g')
  | all {ρ x y f f'} : AlphaEq ((x, y) :: ρ) f f' → AlphaEq ρ (.all x f) (.all y f')
  | ex {ρ x y f f'} : AlphaEq ((x, y) :: ρ) f f' → AlphaEq ρ (.ex x f) (.ex y f')

theorem Ready.corresponds_bind {f : Formula} {x : Symbol} (h : Ready ρ f s)
    (hsize : s.symbols.size < UInt32.size)
    (hρ : ∀ z, z ≠ x ∧ f.Free z → Corresponds ρ z (renamed ρ z)) (z : Symbol) (hz : f.Free z) :
    Corresponds ((x, (BinderState.bind x s).1) :: ρ) z
      (renamed ((x, (BinderState.bind x s).1) :: ρ) z) := by
  rw [renamed_cons]
  by_cases hzx : z = x
  · rw [if_pos hzx]
    exact .inl ⟨hzx, rfl⟩
  · rw [if_neg hzx]
    exact .inr ⟨hzx, h.renamed_ne_bind hsize hz hzx, hρ z ⟨hzx, hz⟩⟩

theorem alphaEq_distinctBelow {f : Formula} (h : Ready ρ f s)
    (hsize : (f.distinctBelow ρ s).2.symbols.size < UInt32.size)
    (hρ : ∀ z, f.Free z → Corresponds ρ z (renamed ρ z)) :
    AlphaEq ρ f (f.distinctBelow ρ s).1 := by
  induction f generalizing ρ s with
  | rel r args => exact .rel fun t ht z hz => hρ z ⟨t, ht, hz⟩
  | eq l r =>
    refine .eq fun t ht z hz => hρ z ?_
    rcases List.mem_pair.mp ht with rfl | rfl
    · exact .inl hz
    · exact .inr hz
  | not f ih => exact .not (ih (h.of_symbols fun _ ha => ha) hsize hρ)
  | and f g ihf ihg | or f g ihf ihg | imp f g ihf ihg | iff f g ihf ihg =>
    have hf := h.of_symbols fun a ha => List.mem_append_left _ ha
    have hg := (h.of_symbols fun a ha => List.mem_append_right _ ha).next (knows_distinctBelow hf)
    constructor
    · exact ihf hf (size_lt_of_distinctBelow (f := g) hsize) fun z hz => hρ z (.inl hz)
    · exact ihg hg hsize fun z hz => hρ z (.inr hz)
  | all x f ih | ex x f ih =>
    have hbody := h.of_symbols fun a ha => List.mem_cons_of_mem x ha
    have hfirst := size_lt_of_bind (size_lt_of_distinctBelow (f := f) hsize)
    constructor
    exact ih (hbody.bind (h.names x List.mem_cons_self)) hsize (hbody.corresponds_bind hfirst hρ)

variable {f : Formula} {σ : Symbols} (counter : UInt32)

theorem ready_distinctBinders (hnames : ∀ a ∈ f.symbols, σ.Knows a) :
    Ready [] f ⟨σ, counter, []⟩ :=
  ⟨hnames, by simp, by simp⟩

theorem nodup_distinctBinders (hnames : ∀ a ∈ f.symbols, σ.Knows a)
    (hsize : (f.distinctBinders counter σ).2.size < UInt32.size) :
    (f.distinctBinders counter σ).1.1.binders.Nodup := by
  have hseen := nodup_distinctBelow (ready_distinctBinders counter hnames) hsize List.nodup_nil
  rwa [seen_distinctBelow, List.append_nil, List.nodup_reverse] at hseen

theorem freeList_distinctBinders (hnames : ∀ a ∈ f.symbols, σ.Knows a)
    (hsize : (f.distinctBinders counter σ).2.size < UInt32.size) :
    (f.distinctBinders counter σ).1.1.freeList = f.freeList :=
  (freeList_distinctBelow (ready_distinctBinders counter hnames) hsize).trans (List.map_id f.freeList)

/-- Making binders distinct is an alpha conversion: the result differs in the names of
bound variables only and has no two quantifiers with one name, its free variables are
found in the same order, and it means the same wherever it is read. -/
theorem distinctBinders_alpha (hnames : ∀ a ∈ f.symbols, σ.Knows a)
    (hsize : (f.distinctBinders counter σ).2.size < UInt32.size) :
    AlphaEq [] f (f.distinctBinders counter σ).1.1 ∧
    (f.distinctBinders counter σ).1.1.binders.Nodup ∧
    (f.distinctBinders counter σ).1.1.freeVars = f.freeVars ∧
    (∀ x, (f.distinctBinders counter σ).1.1.Free x ↔ f.Free x) ∧
    ∀ (D : Type u) (I : Interpretation D) (v : Symbol → D),
      (f.distinctBinders counter σ).1.1.Holds I v ↔ f.Holds I v := by
  have hready := ready_distinctBinders counter hnames
  have hfree := freeList_distinctBinders counter hnames hsize
  refine ⟨?_, nodup_distinctBinders counter hnames hsize, ?_, ?_, ?_⟩
  · exact alphaEq_distinctBelow hready hsize fun _ _ => rfl
  · rw [freeVars_eq, freeVars_eq, hfree]
  · intro x
    rw [← mem_freeList, hfree, mem_freeList]
  · intro D I v
    exact holds_distinctBelow hready hsize v

/-- `P(x) ∧ ∀x. (P(x) ↔ ∃x. (¬P(x) ∨ P(y)))`. -/
def reboundTwice : Formula :=
  .and (.rel ⟨0⟩ [.var ⟨1⟩]) (.all ⟨1⟩ (.iff (.rel ⟨0⟩ [.var ⟨1⟩])
    (.ex ⟨1⟩ (.or (.not (.rel ⟨0⟩ [.var ⟨1⟩])) (.rel ⟨0⟩ [.var ⟨2⟩])))))

/-- A table in which the first name for another `x` is taken. -/
def reboundNames : Symbols := (Symbols.internAll ["P", "x", "y", "x_1"] .empty).2

/-- `P(x) ∧ ∀x. (P(x) ↔ ∃x_2. (¬P(x_2) ∨ P(y)))`. -/
def reboundApart : Formula :=
  .and (.rel ⟨0⟩ [.var ⟨1⟩]) (.all ⟨1⟩ (.iff (.rel ⟨0⟩ [.var ⟨1⟩])
    (.ex ⟨4⟩ (.or (.not (.rel ⟨0⟩ [.var ⟨4⟩])) (.rel ⟨0⟩ [.var ⟨2⟩])))))

theorem distinctBinders_alpha_reboundTwice :
    (∀ a ∈ reboundTwice.symbols, reboundNames.Knows a) ∧
    (reboundTwice.distinctBinders 0 reboundNames).1.1 = reboundApart ∧
    AlphaEq [] reboundTwice reboundApart ∧ reboundApart.binders.Nodup ∧
    reboundApart.freeVars = reboundTwice.freeVars ∧
    (∀ x, reboundApart.Free x ↔ reboundTwice.Free x) ∧
    ∀ (I : Interpretation Nat) (v : Symbol → Nat),
      reboundApart.Holds I v ↔ reboundTwice.Holds I v := by
  have hnames : ∀ a ∈ reboundTwice.symbols, reboundNames.Knows a := by decide
  have hapart : (reboundTwice.distinctBinders 0 reboundNames).1.1 = reboundApart := by decide
  obtain ⟨halpha, hbinders, hvars, hfree, hholds⟩ := distinctBinders_alpha 0 hnames (by decide)
  rw [hapart] at halpha hbinders hvars hfree hholds
  exact ⟨hnames, hapart, halpha, hbinders, hvars, hfree, hholds Nat⟩

end Alpha

end Formula

end Entailment
