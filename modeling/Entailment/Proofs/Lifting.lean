import Entailment.Proofs.Renaming

/-! Inferences on instances. Whatever can be inferred from instances of clauses
is an instance of what can be inferred from the clauses, because a unifier that
is most general leaves every other one possible. -/
namespace Entailment

open Substitution

variable {s : Substitution} {θ : Symbol → Term}

namespace Substitution

theorem respects_empty (θ : Symbol → Term) : Respects θ .empty := nofun

theorem Exact.respects_iff {P : (Symbol → Term) → Prop} (h : empty.Exact P (.ok s)) :
    Respects θ s ↔ P θ :=
  (h.2 θ).trans (and_iff_right (respects_empty θ))

theorem Exact.exists_respects {P : (Symbol → Term) → Prop} {r : Except UnifyError Substitution}
    (h : empty.Exact P r) (hθ : P θ) : ∃ s, r = .ok s ∧ Respects θ s := by
  cases r with
  | error e => exact absurd hθ (h θ (respects_empty θ))
  | ok s => exact ⟨s, rfl, h.respects_iff.mpr hθ⟩

end Substitution

theorem Literal.under_instantiate (h : Respects θ s) (l : Literal) :
    (l.instantiate s).under θ = l.under θ := by
  refine (l.under_under s.apply θ).trans (congrArg l.under (funext fun x => ?_))
  exact h.subst_apply x

theorem Literal.isAnswer_under (σ : Symbols) (l : Literal) (θ : Symbol → Term) :
    (l.under θ).isAnswer σ = l.isAnswer σ := by
  obtain ⟨a, n⟩ := l
  cases a with
  | rel r args => rfl
  | eq l r =>
    simp only [isAnswer, mapTerms, Atom.mapTerms, Atom.equation]
    split <;> rfl

namespace Atom

variable {a b : Atom}

/-- The atom, or the equation turned around. -/
def turned (turn : Bool) : Atom → Atom
  | .rel r args => .rel r args
  | .eq l r => if turn then .eq r l else .eq l r

theorem turned_xor (i j : Bool) (a : Atom) : (a.turned i).turned j = a.turned (i ^^ j) := by
  cases a <;> cases i <;> cases j <;> rfl

theorem turned_turned (turn : Bool) (a : Atom) : (a.turned turn).turned turn = a := by
  cases a <;> cases turn <;> rfl

theorem turned_subst (turn : Bool) (θ : Symbol → Term) (a : Atom) :
    (a.turned turn).subst θ = (a.subst θ).turned turn := by
  cases a <;> cases turn <;> rfl

theorem mapTerms_turned (turn : Bool) (f : Term → Term) (a : Atom) :
    (a.turned turn).mapTerms f = a.mapTerms f := by
  cases a with
  | rel r args => rfl
  | eq l r =>
    cases turn with
    | false => rfl
    | true => exact equation_comm _ _

/-- Putting an equation in order turns it around or leaves it. -/
theorem exists_mapTerms_eq_turned (θ : Symbol → Term) (a : Atom) :
    ∃ turn, a.mapTerms (Term.subst θ) = (a.subst θ).turned turn := by
  cases a with
  | rel r args => exact ⟨false, rfl⟩
  | eq l r =>
    rw [mapTerms, equation]
    split
    · exact ⟨true, rfl⟩
    · exact ⟨false, rfl⟩

theorem mapTerms_subst (θ : Symbol → Term) (a : Atom) :
    a.mapTerms (Term.subst θ) = (a.subst θ).mapTerms id := by
  cases a with
  | rel r args => simp [mapTerms, subst]
  | eq l r => rfl

theorem mapTerms_eq_of_subst_eq (h : a.subst θ = b.subst θ) :
    a.mapTerms (Term.subst θ) = b.mapTerms (Term.subst θ) := by
  rw [mapTerms_subst, mapTerms_subst, h]

/-- The same atom, where an equation may have its sides exchanged. -/
def Alike (a b : Atom) : Prop := ∃ turn, a = b.turned turn

/-- Atoms are alike if they are equal once equations are put in order. -/
theorem alike_subst_iff {η : Symbol → Term} :
    (a.subst θ).Alike (b.subst η) ↔ a.mapTerms (Term.subst θ) = b.mapTerms (Term.subst η) := by
  constructor
  · rintro ⟨turn, h⟩
    rw [mapTerms_subst, mapTerms_subst, h, mapTerms_turned]
  · intro h
    obtain ⟨i, hi⟩ := exists_mapTerms_eq_turned θ a
    obtain ⟨j, hj⟩ := exists_mapTerms_eq_turned η b
    refine ⟨j ^^ i, ?_⟩
    rw [← turned_turned i (a.subst θ), ← hi, h, hj, turned_xor]

theorem mem_unifiers_iff : s ∈ a.unifiers b ↔ ∃ turn, a.unify (b.turned turn) .empty = .ok s := by
  constructor
  · intro h
    rcases mem_unifiers h with hs | ⟨l, r, rfl, hs⟩
    · refine ⟨false, ?_⟩
      cases b <;> exact hs
    · exact ⟨true, hs⟩
  · rintro ⟨turn, h⟩
    unfold unifiers
    extract_lets straight
    have hstraight (h : a.unify b .empty = .ok s) : s ∈ straight := by simp [straight, h]
    cases b with
    | rel r args => exact hstraight h
    | eq l r =>
      dsimp only
      cases turn with
      | false =>
        have hs := hstraight h
        split
        · split
          · exact hs
          · exact List.mem_append_left _ hs
        · exact hs
      | true =>
        rw [show a.unify (.eq r l) .empty = .ok s from h]
        dsimp only
        split
        · rename_i hcontains
          exact List.contains_iff_mem.mp hcontains
        · exact List.mem_append_right _ (List.mem_singleton_self s)

/-- Atoms with a common instance have a unifier that allows for it. -/
theorem exists_mem_unifiers (h : a.mapTerms (Term.subst θ) = b.mapTerms (Term.subst θ)) :
    ∃ s ∈ a.unifiers b, Respects θ s := by
  obtain ⟨turn, hturn⟩ := alike_subst_iff.mpr h
  rw [← turned_subst] at hturn
  obtain ⟨s, hs, hθ⟩ := (unify_exact settled_empty a (b.turned turn)).exists_respects hturn
  exact ⟨s, mem_unifiers_iff.mpr ⟨turn, hs⟩, hθ⟩

theorem mapTerms_eq_of_mem_unifiers (h : s ∈ a.unifiers b) (hθ : Respects θ s) :
    a.mapTerms (Term.subst θ) = b.mapTerms (Term.subst θ) := by
  obtain ⟨turn, hs⟩ := mem_unifiers_iff.mp h
  have hexact := unify_exact settled_empty a (b.turned turn)
  rw [hs] at hexact
  rw [mapTerms_eq_of_subst_eq (hexact.respects_iff.mp hθ), mapTerms_turned]

theorem settled_of_mem_unifiers (h : s ∈ a.unifiers b) : s.Settled := by
  obtain ⟨turn, hs⟩ := mem_unifiers_iff.mp h
  have hexact := unify_exact settled_empty a (b.turned turn)
  rw [hs] at hexact
  exact hexact.1

/-- A unifier makes the atoms equal. -/
theorem mapTerms_apply_of_mem_unifiers (h : s ∈ a.unifiers b) :
    a.mapTerms (Term.subst s.apply) = b.mapTerms (Term.subst s.apply) :=
  mapTerms_eq_of_mem_unifiers h (settled_of_mem_unifiers h).respects_apply

end Atom

namespace Clause

variable {σ : Symbols} {c d e : Clause}

theorem under_combine (h : Respects θ s) (ls : List Literal) :
    (combine ls s).under θ = ofList (ls.map (·.under θ)) := by
  refine ofList_congr fun l => ?_
  simp only [combine, List.mem_map, mem_ofList, exists_exists_and_eq_and,
    Literal.under_instantiate h]

theorem without_eq (h : Increasing c.literals) {l : Literal} {i : Nat}
    (hl : (l, i) ∈ c.literals.zipIdx) : c.without i = c.literals.erase l := by
  obtain ⟨hi, rfl⟩ := List.getElem?_eq_some_iff.mp (List.mk_mem_zipIdx_iff_getElem?.mp hl)
  exact (h.nodup.erase_getElem i hi).symm

theorem exists_mem_zipIdx {l : Literal} (h : l ∈ c.literals) : ∃ i, (l, i) ∈ c.literals.zipIdx := by
  obtain ⟨i, hi⟩ := List.mem_iff_getElem?.mp h
  exact ⟨i, List.mk_mem_zipIdx_iff_getElem?.mpr hi⟩

theorem mem_resolvents (hc : Increasing c.literals) (hd : Increasing d.literals) :
    e ∈ c.resolvents σ d ↔ ∃ l ∈ c.literals, ∃ k ∈ d.literals,
      l.isAnswer σ = false ∧ k.isAnswer σ = false ∧ l.negated ≠ k.negated ∧
        ∃ s ∈ l.atom.unifiers k.atom,
          e = combine (c.literals.erase l ++ d.literals.erase k) s := by
  simp only [resolvents, List.mem_flatMap]
  constructor
  · rintro ⟨⟨l, i⟩, hl, he⟩
    split at he
    · cases he
    rename_i hanswer
    obtain ⟨⟨k, j⟩, hk, he⟩ := List.mem_flatMap.mp he
    split at he
    · cases he
    rename_i hpair
    simp only [Bool.or_eq_true, beq_iff_eq, not_or, Bool.not_eq_true] at hanswer hpair
    obtain ⟨s, hs, rfl⟩ := List.mem_map.mp he
    rw [without_eq hc hl, without_eq hd hk]
    exact ⟨l, List.fst_mem_of_mem_zipIdx hl, k, List.fst_mem_of_mem_zipIdx hk, hanswer, hpair.1,
      hpair.2, s, hs, rfl⟩
  · rintro ⟨l, hl, k, hk, hla, hka, hsign, s, hs, rfl⟩
    obtain ⟨i, hi⟩ := exists_mem_zipIdx hl
    obtain ⟨j, hj⟩ := exists_mem_zipIdx hk
    refine ⟨(l, i), hi, ?_⟩
    rw [if_neg (by simp [hla])]
    refine List.mem_flatMap.mpr ⟨(k, j), hj, ?_⟩
    rw [if_neg (by simp [hka, hsign]), without_eq hc hi, without_eq hd hj]
    exact List.mem_map_of_mem hs

/-- What resolution infers from one instance of both premises. -/
theorem exists_resolvent_under (hc : Increasing c.literals) (hd : Increasing d.literals)
    {l k : Literal} (hl : l ∈ c.literals) (hk : k ∈ d.literals) (hla : l.isAnswer σ = false)
    (hka : k.isAnswer σ = false) (hsign : l.negated ≠ k.negated)
    (hatom : l.atom.mapTerms (Term.subst θ) = k.atom.mapTerms (Term.subst θ)) :
    ∃ e ∈ c.resolvents σ d,
      e.under θ = ofList ((c.literals.erase l ++ d.literals.erase k).map (·.under θ)) := by
  obtain ⟨s, hs, hθ⟩ := Atom.exists_mem_unifiers hatom
  exact ⟨_, (mem_resolvents hc hd).mpr ⟨l, hl, k, hk, hla, hka, hsign, s, hs, rfl⟩,
    under_combine hθ _⟩

/-- What resolution infers from two instances on opposite literals. -/
theorem exists_mem_resolvents (hc : Increasing c.literals) (hd : Increasing d.literals)
    (hapart : ∀ x ∈ c.vars, x ∉ d.vars) {l k : Literal} (hl : l ∈ c.literals)
    (hk : k ∈ d.literals) (hla : l.isAnswer σ = false) (hka : k.isAnswer σ = false)
    {γ δ : Symbol → Term} (heq : k.under δ = (l.under γ).not) :
    ∃ e ∈ c.resolvents σ d, ∃ η, e.under η =
      ofList ((c.literals.erase l).map (·.under γ) ++ (d.literals.erase k).map (·.under δ)) := by
  let η : Symbol → Term := fun x => if x ∈ c.vars then γ x else δ x
  have hγ {m : Literal} (hm : m ∈ c.literals) : m.under η = m.under γ :=
    Literal.under_congr fun x hx => if_pos (mem_vars.mpr ⟨m, hm, hx⟩)
  have hδ {m : Literal} (hm : m ∈ d.literals) : m.under η = m.under δ :=
    Literal.under_congr fun x hx => if_neg fun hx' => hapart x hx' (mem_vars.mpr ⟨m, hm, hx⟩)
  have hboth : k.under η = (l.under η).not := by rw [hδ hk, hγ hl, heq]
  have hsign : l.negated ≠ k.negated := by
    rw [show k.negated = !l.negated from congrArg Literal.negated hboth]
    simp
  obtain ⟨e, he, hη⟩ := exists_resolvent_under hc hd hl hk hla hka hsign
    (congrArg Literal.atom hboth).symm
  refine ⟨e, he, η, ?_⟩
  rw [hη, List.map_append, List.map_congr_left fun m hm => hγ (List.mem_of_mem_erase hm),
    List.map_congr_left fun m hm => hδ (List.mem_of_mem_erase hm)]

theorem exists_mem_mergers {ls : List Literal} {l k : Literal} (hl : l ∈ ls) (hk : k ∈ ls)
    (hne : l ≠ k) (hla : l.isAnswer σ = false) (hka : k.isAnswer σ = false)
    (hsign : l.negated = k.negated) (heq : l.under θ = k.under θ) :
    ∃ s ∈ mergers σ ls, Respects θ s ∧ l.under s.apply = k.under s.apply := by
  have hatom : l.atom.mapTerms (Term.subst θ) = k.atom.mapTerms (Term.subst θ) :=
    (Literal.mk.inj heq).1
  induction ls with
  | nil => cases hl
  | cons m ms ih =>
    simp only [mergers, List.mem_append]
    rcases List.mem_cons.mp hl with rfl | hltail
    · -- The later literal of the two stands in the rest of the list.
      have hktail := (List.mem_cons.mp hk).resolve_left (Ne.symm hne)
      obtain ⟨s, hs, hθ⟩ := Atom.exists_mem_unifiers hatom
      refine ⟨s, .inl ?_, hθ, ?_⟩
      · rw [if_neg (by simp [hla])]
        refine List.mem_flatMap.mpr ⟨k, hktail, ?_⟩
        rwa [if_neg (by simp [hka, hsign])]
      · exact congrArg₂ Literal.mk (Atom.mapTerms_apply_of_mem_unifiers hs) hsign
    · rcases List.mem_cons.mp hk with rfl | hktail
      · obtain ⟨s, hs, hθ⟩ := Atom.exists_mem_unifiers hatom.symm
        refine ⟨s, .inl ?_, hθ, ?_⟩
        · rw [if_neg (by simp [hka])]
          refine List.mem_flatMap.mpr ⟨l, hltail, ?_⟩
          rwa [if_neg (by simp [hla, hsign])]
        · exact congrArg₂ Literal.mk (Atom.mapTerms_apply_of_mem_unifiers hs).symm hsign
      · obtain ⟨s, hs, hθ⟩ := ih hltail hktail
        exact ⟨s, .inr hs, hθ⟩

/-- An instance in which two literals become one is an instance of a smaller factor. -/
theorem exists_mem_factors (hc : c.Normal) {l k : Literal} (hl : l ∈ c.literals)
    (hk : k ∈ c.literals) (hne : l ≠ k) (hla : l.isAnswer σ = false) (hka : k.isAnswer σ = false)
    (heq : l.under θ = k.under θ) :
    ∃ e ∈ c.factors σ, e.under θ = c.under θ ∧ e.size < c.size := by
  have hsign : l.negated = k.negated := (Literal.mk.inj heq).2
  obtain ⟨s, hs, hθ, hmerged⟩ := exists_mem_mergers hl hk hne hla hka hsign heq
  exact ⟨_, List.mem_map_of_mem hs, under_combine hθ c.literals, size_under_lt hc hl hk hne hmerged⟩

end Clause

end Entailment
