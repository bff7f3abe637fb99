import Entailment.Proofs.Truth
import Mathlib.Data.Finset.Card

/-! Clauses as sets of literals. Sorting makes clauses with the same literals
equal, and it brings a literal next to its negation. Equations are compared
with their sides in order, so that substitution acts on clauses as on sets. -/
namespace Entailment

/-- Strictly increasing in the order of literals. -/
def Increasing (ls : List Literal) : Prop := ls.Pairwise fun l k => compare l k = .lt

instance (ls : List Literal) : Decidable (Increasing ls) :=
  inferInstanceAs (Decidable (ls.Pairwise fun l k => compare l k = .lt))

theorem increasing_insertLiteral (l : Literal) {ls : List Literal} (h : Increasing ls) :
    Increasing (insertLiteral l ls) := by
  unfold Increasing at h ⊢
  induction ls with
  | nil => simp [insertLiteral]
  | cons m ms ih =>
    have htail := List.pairwise_cons.mp h
    rw [insertLiteral]
    split
    · rename_i hlt
      refine List.pairwise_cons.mpr ⟨fun k hk => ?_, h⟩
      rcases List.mem_cons.mp hk with rfl | hk
      · exact hlt
      · exact Std.TransCmp.lt_trans hlt (htail.1 k hk)
    · exact h
    · rename_i hgt
      refine List.pairwise_cons.mpr ⟨fun k hk => ?_, ih htail.2⟩
      rcases mem_insertLiteral.mp hk with rfl | hk
      · exact Std.OrientedCmp.gt_iff_lt.mp hgt
      · exact htail.1 k hk

theorem Increasing.nodup {ls : List Literal} (h : Increasing ls) : ls.Nodup :=
  h.imp fun hlt heq => by simp [heq] at hlt

theorem Increasing.eq_of_mem_iff {ls ks : List Literal} (hls : Increasing ls)
    (hks : Increasing ks) (h : ∀ l, l ∈ ls ↔ l ∈ ks) : ls = ks := by
  refine ((List.perm_ext_iff_of_nodup hls.nodup hks.nodup).mpr h).eq_of_pairwise ?_ hls hks
  intro l k _ _ hlk hkl
  rw [Std.OrientedOrd.eq_swap, hkl] at hlk
  cases hlk

namespace Atom

theorem equation_comm (l r : Term) : equation l r = equation r l := by
  unfold equation
  simp only [Term.lt_def]
  rw [Term.cmp_swap l r]
  cases h : Term.cmp r l with
  | lt => simp
  | gt => simp
  | eq => simp [Term.eq_of_cmp h]

/-- The sides of an equation are in order. -/
def Ordered : Atom → Prop
  | .rel .. => True
  | .eq l r => ¬ r < l

instance : (a : Atom) → Decidable a.Ordered
  | .rel .. => inferInstanceAs (Decidable True)
  | .eq l r => inferInstanceAs (Decidable (¬ r < l))

theorem ordered_equation (l r : Term) : (equation l r).Ordered := by
  unfold equation
  split
  · rename_i h
    simp only [Ordered, Term.lt_def] at h ⊢
    rw [Term.cmp_swap, h]
    simp
  · assumption

theorem ordered_of_isEq {a : Atom} (h : a.isEq = false) : a.Ordered := by
  cases a with
  | rel r args => trivial
  | eq l r => cases h

theorem ordered_mapTerms (f : Term → Term) (a : Atom) : (a.mapTerms f).Ordered := by
  cases a with
  | rel r args => trivial
  | eq l r => exact ordered_equation _ _

theorem mapTerms_equation (f : Term → Term) (l r : Term) :
    (equation l r).mapTerms f = equation (f l) (f r) := by
  unfold equation
  split
  · exact equation_comm _ _
  · rfl

theorem mem_terms_equation {l r t : Term} : t ∈ (equation l r).terms ↔ t = l ∨ t = r := by
  unfold equation
  split
  · simp [terms, or_comm]
  · simp [terms]

theorem mapTerms_mapTerms (f g : Term → Term) (a : Atom) :
    (a.mapTerms f).mapTerms g = a.mapTerms (g ∘ f) := by
  cases a with
  | rel r args => simp [mapTerms]
  | eq l r => exact mapTerms_equation g (f l) (f r)

theorem mapTerms_id {a : Atom} (h : a.Ordered) : a.mapTerms id = a := by
  cases a with
  | rel r args => simp [mapTerms]
  | eq l r => exact if_neg h

theorem mapTerms_congr {f g : Term → Term} {a : Atom} (h : ∀ t ∈ a.terms, f t = g t) :
    a.mapTerms f = a.mapTerms g := by
  cases a with
  | rel r args => exact congrArg (rel r) (List.map_congr_left h)
  | eq l r => simp only [mapTerms, h l (by simp [terms]), h r (by simp [terms])]

theorem mem_terms_mapTerms {f : Term → Term} {a : Atom} {t : Term} :
    t ∈ (a.mapTerms f).terms ↔ ∃ u ∈ a.terms, f u = t := by
  cases a with
  | rel r args => simp [mapTerms, terms]
  | eq l r =>
    rw [mapTerms, mem_terms_equation]
    simp [terms, eq_comm]

end Atom

namespace Literal

/-- The instance of the literal when the variables stand for the terms of `θ`. -/
abbrev under (l : Literal) (θ : Symbol → Term) : Literal := l.mapTerms (Term.subst θ)

def HasVar (l : Literal) (x : Symbol) : Prop := ∃ t ∈ l.terms, t.hasVar x = true

variable {l k : Literal} {θ η : Symbol → Term}

@[simp] theorem not_not (l : Literal) : l.not.not = l := by
  simp [Literal.not]

theorem under_under (l : Literal) (θ η : Symbol → Term) :
    (l.under θ).under η = l.under fun x => (θ x).subst η := by
  simp only [under, mapTerms, Atom.mapTerms_mapTerms]
  congr 2
  funext t
  exact Term.subst_subst θ η t

theorem under_congr (h : ∀ x, l.HasVar x → θ x = η x) : l.under θ = l.under η := by
  simp only [under, mapTerms]
  congr 1
  refine Atom.mapTerms_congr fun t ht => Term.subst_congr fun x hx => ?_
  exact h x ⟨t, ht, hx⟩

theorem under_var (h : l.atom.Ordered) : l.under .var = l := by
  have hid : Term.subst .var = id := funext Term.subst_var_eq
  simp only [under, mapTerms, hid, Atom.mapTerms_id h]

theorem hasVar_under {y : Symbol} :
    (l.under θ).HasVar y ↔ ∃ x, l.HasVar x ∧ (θ x).hasVar y = true := by
  constructor
  · rintro ⟨_, hmem, hy⟩
    obtain ⟨t, ht, rfl⟩ := Atom.mem_terms_mapTerms.mp hmem
    obtain ⟨x, hx, hxy⟩ := Term.hasVar_subst.mp hy
    exact ⟨x, ⟨t, ht, hx⟩, hxy⟩
  · rintro ⟨x, ⟨t, ht, hx⟩, hxy⟩
    exact ⟨_, Atom.mem_terms_mapTerms.mpr ⟨t, ht, rfl⟩, Term.hasVar_subst.mpr ⟨x, hx, hxy⟩⟩

theorem compare_eq (l k : Literal) :
    compare l k = (compare l.atom k.atom).then (compare l.negated k.negated) := rfl

/-- Nothing stands between a literal and its negation. -/
theorem eq_not_of_between {a : Atom} (hlt : compare ⟨a, false⟩ l = .lt)
    (hle : compare l ⟨a, true⟩ ≠ .gt) : l = ⟨a, true⟩ := by
  obtain ⟨b, n⟩ := l
  simp only [compare_eq] at hlt hle
  rw [Std.OrientedOrd.eq_swap (a := b)] at hle
  cases hab : compare a b with
  | lt => simp [hab] at hle
  | gt => simp [hab] at hlt
  | eq =>
    obtain rfl := Std.LawfulEqOrd.eq_of_compare hab
    cases n with
    | true => rfl
    | false => simp at hlt

end Literal

namespace Clause

theorem increasing_ofList (ls : List Literal) : Increasing (ofList ls).literals := by
  unfold ofList
  induction ls with
  | nil => exact List.Pairwise.nil
  | cons l ls ih => exact increasing_insertLiteral l ih

theorem eq_of_mem_iff {c d : Clause} (hc : Increasing c.literals) (hd : Increasing d.literals)
    (h : ∀ l, l ∈ c.literals ↔ l ∈ d.literals) : c = d :=
  congrArg Clause.mk (hc.eq_of_mem_iff hd h)

theorem ofList_congr {ls ks : List Literal} (h : ∀ l, l ∈ ls ↔ l ∈ ks) : ofList ls = ofList ks :=
  eq_of_mem_iff (increasing_ofList ls) (increasing_ofList ks) fun l => by simp [h]

/-- Sorted, without repetition, and with the sides of all equations in order. -/
structure Normal (c : Clause) : Prop where
  increasing : Increasing c.literals
  ordered : ∀ l ∈ c.literals, l.atom.Ordered

instance (c : Clause) : Decidable c.Normal :=
  decidable_of_iff (Increasing c.literals ∧ ∀ l ∈ c.literals, l.atom.Ordered)
    ⟨fun h => ⟨h.1, h.2⟩, fun h => ⟨h.increasing, h.ordered⟩⟩

theorem normal_ofList {ls : List Literal} (h : ∀ l ∈ ls, l.atom.Ordered) : (ofList ls).Normal :=
  ⟨increasing_ofList ls, fun l hl => h l (mem_ofList.mp hl)⟩

theorem normal_ofList_map (f : Term → Term) (ls : List Literal) :
    (ofList (ls.map (·.mapTerms f))).Normal := by
  refine normal_ofList fun l hl => ?_
  obtain ⟨k, -, rfl⟩ := List.mem_map.mp hl
  exact Atom.ordered_mapTerms f k.atom

theorem normal_mapTerms (f : Term → Term) (c : Clause) : (c.mapTerms f).Normal :=
  normal_ofList_map f c.literals

/-- The instance of the clause when the variables stand for the terms of `θ`. -/
abbrev under (c : Clause) (θ : Symbol → Term) : Clause := c.mapTerms (Term.subst θ)

variable {c d : Clause} {θ η : Symbol → Term}

theorem mem_under {l : Literal} : l ∈ (c.under θ).literals ↔ ∃ k ∈ c.literals, k.under θ = l := by
  simp only [under, mapTerms, mem_ofList, List.mem_map]

theorem increasing_under (c : Clause) (θ : Symbol → Term) : Increasing (c.under θ).literals :=
  increasing_ofList _

theorem under_mem_under {l : Literal} (h : l ∈ c.literals) : l.under θ ∈ (c.under θ).literals :=
  mem_under.mpr ⟨l, h, rfl⟩

theorem under_under (c : Clause) (θ η : Symbol → Term) :
    (c.under θ).under η = c.under fun x => (θ x).subst η := by
  refine eq_of_mem_iff (increasing_ofList _) (increasing_ofList _) fun l => ?_
  rw [mem_under, mem_under]
  simp only [mem_under, exists_exists_and_eq_and, Literal.under_under]

theorem mem_vars {x : Symbol} : x ∈ c.vars ↔ ∃ l ∈ c.literals, l.HasVar x := by
  simp only [vars, Term.mem_varsOf, List.mem_flatMap, Literal.HasVar]
  constructor
  · rintro ⟨t, ⟨l, hl, ht⟩, hx⟩
    exact ⟨l, hl, t, ht, hx⟩
  · rintro ⟨l, hl, t, ht, hx⟩
    exact ⟨t, ⟨l, hl, ht⟩, hx⟩

theorem mem_vars_under {y : Symbol} :
    y ∈ (c.under θ).vars ↔ ∃ x ∈ c.vars, (θ x).hasVar y = true := by
  simp only [mem_vars, mem_under, exists_exists_and_eq_and, Literal.hasVar_under]
  constructor
  · rintro ⟨l, hl, x, hx, hy⟩
    exact ⟨x, ⟨l, hl, hx⟩, hy⟩
  · rintro ⟨x, ⟨l, hl, hx⟩, hy⟩
    exact ⟨l, hl, x, hx, hy⟩

theorem under_congr (h : ∀ x ∈ c.vars, θ x = η x) : c.under θ = c.under η := by
  refine ofList_congr fun l => ?_
  rw [List.map_congr_left fun k hk => Literal.under_congr fun x hx => h x (mem_vars.mpr ⟨k, hk, hx⟩)]

theorem under_var (h : c.Normal) : c.under .var = c := by
  refine eq_of_mem_iff (increasing_ofList _) h.increasing fun l => ?_
  rw [mem_under]
  constructor
  · rintro ⟨k, hk, rfl⟩
    rwa [Literal.under_var (h.ordered k hk)]
  · exact fun hl => ⟨l, hl, Literal.under_var (h.ordered l hl)⟩

theorem under_eq_self (h : c.Normal) (hθ : ∀ x ∈ c.vars, θ x = .var x) : c.under θ = c :=
  (under_congr hθ).trans (under_var h)

theorem card_literals (h : Increasing c.literals) : c.literals.toFinset.card = c.size :=
  List.toFinset_card_of_nodup h.nodup

theorem toFinset_under (c : Clause) (θ : Symbol → Term) :
    (c.under θ).literals.toFinset = c.literals.toFinset.image (·.under θ) := by
  ext l
  simp only [List.mem_toFinset, Finset.mem_image, mem_under]

theorem size_under_le (h : c.Normal) (θ : Symbol → Term) : (c.under θ).size ≤ c.size := by
  rw [← card_literals (increasing_under c θ), ← card_literals h.increasing, toFinset_under]
  exact Finset.card_image_le

/-- An instance in which two literals become one is smaller. -/
theorem size_under_lt (h : c.Normal) {l k : Literal} (hl : l ∈ c.literals) (hk : k ∈ c.literals)
    (hne : l ≠ k) (heq : l.under θ = k.under θ) : (c.under θ).size < c.size := by
  rw [← card_literals (increasing_under c θ), ← card_literals h.increasing, toFinset_under]
  refine lt_of_le_of_ne Finset.card_image_le fun hcard => hne ?_
  exact Finset.card_image_iff.mp hcard (by simpa using hl) (by simpa using hk) heq

theorem hasComplement_of_mem {ls : List Literal} (h : Increasing ls) {a : Atom}
    (hpos : ⟨a, false⟩ ∈ ls) (hneg : ⟨a, true⟩ ∈ ls) : hasComplement ls = true := by
  induction ls with
  | nil => cases hpos
  | cons l ls ih =>
    have htail := List.pairwise_cons.mp h
    cases ls with
    | nil =>
      simp only [List.mem_singleton] at hpos hneg
      rw [← hpos] at hneg
      cases hneg
    | cons k ks =>
      rw [hasComplement, Bool.or_eq_true]
      rcases List.mem_cons.mp hpos with rfl | hpos
      · -- The negation comes right after the literal.
        have hk : k = ⟨a, true⟩ := by
          refine Literal.eq_not_of_between (htail.1 k List.mem_cons_self) ?_
          rcases List.mem_cons.mp ((List.mem_cons.mp hneg).resolve_left (by simp)) with heq | hneg
          · simp [heq]
          · simp [(List.pairwise_cons.mp htail.2).1 _ hneg]
        left
        simp [hk]
      · refine .inr (ih htail.2 hpos ((List.mem_cons.mp hneg).resolve_left fun heq => ?_))
        have hlt := htail.1 _ hpos
        simp [← heq, Literal.compare_eq] at hlt

theorem eq_not_of_opposite {l k : Literal} (hatom : l.atom = k.atom)
    (hsign : l.negated ≠ k.negated) : k = l.not := by
  obtain ⟨a, m⟩ := l
  obtain ⟨b, n⟩ := k
  obtain rfl : a = b := hatom
  cases m <;> cases n <;> simp_all [Literal.not]

theorem mem_of_hasComplement : ∀ {ls : List Literal}, hasComplement ls = true →
    ∃ l ∈ ls, l.not ∈ ls
  | [], h => by cases h
  | [_], h => by cases h
  | l :: k :: ls, h => by
    rw [hasComplement, Bool.or_eq_true, Bool.and_eq_true, beq_iff_eq, bne_iff_ne] at h
    rcases h with ⟨hatom, hsign⟩ | h
    · exact ⟨l, by simp, by simp [eq_not_of_opposite hatom hsign]⟩
    · obtain ⟨m, hm, hnot⟩ := mem_of_hasComplement h
      exact ⟨m, List.mem_cons_of_mem l hm, List.mem_cons_of_mem l hnot⟩

/-- Looking at neighbours finds every literal that stands beside its negation. -/
theorem isTautology_iff (h : Increasing c.literals) :
    c.isTautology = true ↔
      (∃ l ∈ c.literals, l.not ∈ c.literals) ∨ ∃ l ∈ c.literals, isReflexive l = true := by
  rw [isTautology, Bool.or_eq_true, List.any_eq_true]
  refine or_congr_left ⟨mem_of_hasComplement, ?_⟩
  rintro ⟨⟨a, n⟩, hl, hnot⟩
  cases n with
  | false => exact hasComplement_of_mem h hl hnot
  | true => exact hasComplement_of_mem h hnot hl

theorem isReflexive_under {l : Literal} (h : isReflexive l = true) (θ : Symbol → Term) :
    isReflexive (l.under θ) = true := by
  unfold isReflexive at h
  split at h
  · rename_i s t
    rw [beq_iff_eq] at h
    simp [h, Literal.mapTerms, Atom.mapTerms, Atom.equation, isReflexive, Term.lt_def, Term.cmp_self]
  · cases h

/-- Instances of tautologies are tautologies. -/
theorem isTautology_under (hc : c.Normal) (h : c.isTautology = true) (θ : Symbol → Term) :
    (c.under θ).isTautology = true := by
  rw [isTautology_iff (increasing_under c θ)]
  rcases (isTautology_iff hc.increasing).mp h with ⟨l, hl, hnot⟩ | ⟨l, hl, hrefl⟩
  · exact .inl ⟨_, under_mem_under hl, under_mem_under (θ := θ) hnot⟩
  · exact .inr ⟨_, under_mem_under hl, isReflexive_under hrefl θ⟩

end Clause

end Entailment
