import Entailment.Proofs.Clause
import Entailment.Proofs.Clausify
import Entailment.Proofs.Unification.MostGeneral

/-! Atoms and their signs from a formula to its clauses. Whatever holds of the
atoms of a formula, each with the sign it has there, and is kept by substitution,
holds of the literals of its clauses. -/
namespace Entailment

namespace Formula

/-- The atoms of a formula, with equations as they are written. -/
def atoms : Formula → List Atom
  | .rel r args => [.rel r args]
  | .eq l r => [.eq l r]
  | .not f | .all _ f | .ex _ f => f.atoms
  | .and f g | .or f g | .imp f g | .iff f g => f.atoms ++ g.atoms

theorem mem_symbols_of_mem_atoms {f : Formula} {a : Atom} {x : Symbol} (ha : a ∈ f.atoms)
    (hx : x ∈ a.symbols) : x ∈ f.symbols := by
  induction f with
  | rel r args | eq l r =>
    rw [List.mem_singleton.mp ha] at hx
    exact hx
  | not f ih => exact ih ha
  | all y f ih | ex y f ih => exact List.mem_cons_of_mem y (ih ha)
  | and f g ihf ihg | or f g ihf ihg | imp f g ihf ihg | iff f g ihf ihg =>
    rw [symbols, List.mem_append]
    exact (List.mem_append.mp ha).imp ihf ihg

/-- All atoms have the property, each together with whether it stands negated in
the formula or, when `negated`, in its negation. -/
def Signs (p : Bool → Atom → Prop) : (negated : Bool) → Formula → Prop
  | n, .rel r args => p n (.rel r args)
  | n, .eq l r => p n (.eq l r)
  | n, .not f => f.Signs p !n
  | n, .and f g | n, .or f g => f.Signs p n ∧ g.Signs p n
  | n, .imp f g => f.Signs p (!n) ∧ g.Signs p n
  | _, .iff f g => (f.Signs p false ∧ f.Signs p true) ∧ g.Signs p false ∧ g.Signs p true
  | n, .all _ f | n, .ex _ f => f.Signs p n

variable {p : Bool → Atom → Prop} {f g : Formula} {n : Bool}

theorem signs_of_atoms (h : ∀ a ∈ f.atoms, ∀ n, p n a) (n : Bool) : f.Signs p n := by
  induction f generalizing n with
  | rel r args | eq l r => exact h _ List.mem_cons_self n
  | not f ih | all x f ih | ex x f ih => exact ih h _
  | and f g ihf ihg | or f g ihf ihg | imp f g ihf ihg =>
    obtain ⟨hf, hg⟩ := List.forall_mem_append.mp h
    exact ⟨ihf hf _, ihg hg _⟩
  | iff f g ihf ihg =>
    obtain ⟨hf, hg⟩ := List.forall_mem_append.mp h
    exact ⟨⟨ihf hf _, ihf hf _⟩, ihg hg _, ihg hg _⟩

theorem Signs.basic (h : f.Signs p n) : f.basic.Signs p n := by
  induction f generalizing n with
  | rel r args | eq l r => exact h
  | not f ih | all x f ih | ex x f ih => exact ih h
  | and f g ihf ihg | or f g ihf ihg | imp f g ihf ihg => exact ⟨ihf h.1, ihg h.2⟩
  | iff f g ihf ihg =>
    have hf (n : Bool) : f.basic.Signs p n := by cases n <;> [exact ihf h.1.1; exact ihf h.1.2]
    have hg (n : Bool) : g.basic.Signs p n := by cases n <;> [exact ihg h.2.1; exact ihg h.2.2]
    exact ⟨⟨hf _, hg _⟩, hg _, hf _⟩

theorem Signs.pushNegation (h : f.Signs p n) : (f.pushNegation n).Signs p false := by
  induction f generalizing n with
  | rel r args | eq l r => cases n <;> exact h
  | not f ih =>
    rw [Formula.pushNegation]
    exact ih h
  | and f g ihf ihg | or f g ihf ihg | imp f g ihf ihg =>
    cases n <;> exact ⟨ihf h.1, ihg h.2⟩
  | iff f g ihf ihg =>
    obtain ⟨⟨hf, hf'⟩, hg, hg'⟩ := h
    cases n with
    | false => exact ⟨⟨ihf hf', ihg hg⟩, ihg hg', ihf hf⟩
    | true => exact ⟨⟨ihf hf, ihg hg'⟩, ihg hg, ihf hf'⟩
  | all x f ih | ex x f ih => cases n <;> exact ih h

theorem Signs.recast (hp : ∀ n a θ, p n a → p n (Atom.subst θ a)) (hfg : f.Recast g)
    (h : f.Signs p n) : g.Signs p n := by
  induction hfg generalizing n with
  | rel θ r args | eq θ l r => exact hp n _ θ h
  | not _ ih | all x y _ ih | ex x y _ ih | skolem x _ ih => exact ih h
  | and _ _ ihf ihg | or _ _ ihf ihg | imp _ _ ihf ihg => exact ⟨ihf h.1, ihg h.2⟩
  | iff _ _ ihf ihg => exact ⟨⟨ihf h.1.1, ihf h.1.2⟩, ihg h.2.1, ihg h.2.2⟩

/-- A property of clauses holds of all clauses of a formula when it holds of its
literals and is kept by union. -/
theorem forall_clauses {Q : Clause → Prop}
    (hrel : ∀ n r args, p n (.rel r args) → Q (.ofList [⟨.rel r args, n⟩]))
    (heq : ∀ n l r, p n (.eq l r) → Q (.ofList [⟨.equation l r, n⟩]))
    (hunion : ∀ c d, Q c → Q d → Q (c.union d)) (hskolem : f.IsSkolem) (hf : f.Signs p false)
    {cs : List Clause} (h : f.clauses false = .ok cs) : ∀ c ∈ cs, Q c := by
  induction hskolem generalizing cs with
  | rel r args | notRel r args =>
    cases h
    exact List.forall_mem_singleton.mpr (hrel _ r args hf)
  | eq l r | notEq l r =>
    cases h
    exact List.forall_mem_singleton.mpr (heq _ l r hf)
  | and _ _ ihf ihg =>
    obtain ⟨ds, es, hds, hes, rfl⟩ := Clause.exists_of_join h
    exact List.forall_mem_append.mpr ⟨ihf hf.1 hds, ihg hf.2 hes⟩
  | or _ _ ihf ihg =>
    obtain ⟨ds, es, hds, hes, hcs⟩ := Clause.exists_of_distribute h
    intro e he
    obtain ⟨c, hc, d, hd, rfl⟩ := (Clause.mem_distribute hcs).mp he
    exact hunion c d (ihf hf.1 hds c hc) (ihg hf.2 hes d hd)
  | all x _ ih => exact ih hf h

/-- A disjunction below universal quantifiers, with such atoms on the left. -/
def Tagged (p : Bool → Atom → Prop) : Formula → Prop
  | .all _ f => f.Tagged p
  | .or f _ => f.Signs p false
  | _ => False

namespace Tagged

theorem basic (h : f.Tagged p) : f.basic.Tagged p := by
  induction f with
  | all x f ih => exact ih h
  | or f g => exact Signs.basic h
  | _ => cases h

theorem nnf (h : f.Tagged p) : f.nnf.Tagged p := by
  induction f with
  | all x f ih => exact ih h
  | or f g => exact Signs.pushNegation h
  | _ => cases h

theorem recast (hp : ∀ n a θ, p n a → p n (Atom.subst θ a)) (hfg : f.Recast g)
    (h : f.Tagged p) : g.Tagged p := by
  induction hfg with
  | all x y _ ih => exact ih h
  | or hf _ => exact Signs.recast hp hf h
  | _ => cases h

/-- Every clause has a literal from the left part. -/
theorem exists_mem (heq : ∀ n l r, p n (.eq l r) → p n (.equation l r)) (hskolem : f.IsSkolem)
    (h : f.Tagged p) {cs : List Clause} (hcs : f.clauses false = .ok cs) :
    ∀ c ∈ cs, ∃ l ∈ c.literals, p l.negated l.atom := by
  induction hskolem generalizing cs with
  | all x _ ih => exact ih h hcs
  | or hf _ =>
    obtain ⟨ds, es, hds, -, hcs⟩ := Clause.exists_of_distribute hcs
    have hleft := forall_clauses (p := p) (Q := fun c => ∃ l ∈ c.literals, p l.negated l.atom)
      (fun n r args h => ⟨_, Clause.mem_ofList.mpr List.mem_cons_self, h⟩)
      (fun n l r h => ⟨_, Clause.mem_ofList.mpr List.mem_cons_self, heq n l r h⟩)
      (fun c d ⟨l, hl, h⟩ _ => ⟨l, Clause.mem_ofList.mpr (List.mem_append_left _ hl), h⟩) hf h hds
    intro e he
    obtain ⟨c, hc, d, -, rfl⟩ := (Clause.mem_distribute hcs).mp he
    obtain ⟨l, hl, hp⟩ := hleft c hc
    exact ⟨l, Clause.mem_ofList.mpr (List.mem_append_left _ hl), hp⟩
  | _ => cases h

end Tagged

end Formula

namespace Clause

theorem normal_union {c d : Clause} (hc : c.Normal) (hd : d.Normal) : (c.union d).Normal :=
  normal_ofList (List.forall_mem_append.mpr ⟨hc.ordered, hd.ordered⟩)

theorem union_ne_nil {c : Clause} (hc : c.literals ≠ []) (d : Clause) :
    (c.union d).literals ≠ [] := by
  obtain ⟨l, hl⟩ := List.exists_mem_of_ne_nil _ hc
  exact List.ne_nil_of_mem (mem_ofList.mpr (List.mem_append_left d.literals hl))

end Clause

namespace Clausifier

/-- Clauses are made of literals by union. -/
theorem normal_of_skolemForm {f : Formula} {k : Clausifier} {σ : Symbols} {cs : List Clause}
    (h : (skolemForm f k σ).1.clauses false = .ok cs) : ∀ c ∈ cs, c.Normal ∧ c.literals ≠ [] := by
  refine Formula.forall_clauses (p := fun _ _ => True) ?_ ?_ ?_ (isSkolem_skolemForm f k σ)
    (Formula.signs_of_atoms (fun _ _ _ => trivial) false) h
  · intro n r args _
    exact ⟨Clause.normal_ofList (List.forall_mem_singleton.mpr trivial), List.cons_ne_nil _ _⟩
  · intro n l r _
    exact ⟨Clause.normal_ofList (List.forall_mem_singleton.mpr (Atom.ordered_equation l r)),
      List.cons_ne_nil _ _⟩
  · exact fun c d hc hd => ⟨Clause.normal_union hc.1 hd.1, Clause.union_ne_nil hc.2 d⟩

theorem forall_clausify {p : Bool → Atom → Prop} {Q : Clause → Prop}
    (hp : ∀ n a θ, p n a → p n (Atom.subst θ a))
    (hrel : ∀ n r args, p n (.rel r args) → Q (.ofList [⟨.rel r args, n⟩]))
    (heq : ∀ n l r, p n (.eq l r) → Q (.ofList [⟨.equation l r, n⟩]))
    (hunion : ∀ c d, Q c → Q d → Q (c.union d)) {f : Formula} {k : Clausifier} {s : Session}
    {cs : ClauseSet} (hf : f.Signs p false) (hok : (clausify f k s).1.1 = .ok cs) :
    ∀ c ∈ cs.clauses, Q c := by
  obtain ⟨ds, hds, hcs⟩ := exists_clauses_of_clausify hok
  have hsigns := hf.basic.pushNegation.recast hp (recast_skolemForm f k s.symbols)
  intro c hc
  exact Formula.forall_clauses hrel heq hunion (isSkolem_skolemForm f k s.symbols) hsigns hds c ((hcs c).mp hc).1

theorem exists_mem_of_clausify {p : Bool → Atom → Prop}
    (hp : ∀ n a θ, p n a → p n (Atom.subst θ a))
    (heq : ∀ n l r, p n (.eq l r) → p n (.equation l r)) {f : Formula} {k : Clausifier}
    {s : Session} {cs : ClauseSet} (hf : f.Tagged p) (hok : (clausify f k s).1.1 = .ok cs) :
    ∀ c ∈ cs.clauses, ∃ l ∈ c.literals, p l.negated l.atom := by
  obtain ⟨ds, hds, hcs⟩ := exists_clauses_of_clausify hok
  have htagged := hf.basic.nnf.recast hp (recast_skolemForm f k s.symbols)
  intro c hc
  exact htagged.exists_mem heq (isSkolem_skolemForm f k s.symbols) hds c ((hcs c).mp hc).1

end Clausifier

end Entailment
