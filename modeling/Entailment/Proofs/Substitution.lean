import Entailment.Substitution
import Entailment.Proofs.Symbol
import Entailment.Proofs.Term

/-! Substitutions as maps. A settled substitution has no bound variable in a
bound term, so that applying it once follows every chain of bindings. -/
namespace Entailment

namespace Substitution

theorem lookup_insertBinding (x y : Symbol) (t : Term) (l : List (Symbol × Term)) :
    (insertBinding x t l).lookup y = if y = x then some t else l.lookup y := by
  induction l with
  | nil => rw [insertBinding, Symbol.lookup_cons]
  | cons p rest ih =>
    obtain ⟨z, u⟩ := p
    rw [insertBinding]
    split
    · rw [Symbol.lookup_cons]
    · split
      · rename_i hz
        subst hz
        rw [Symbol.lookup_cons, Symbol.lookup_cons]
        split <;> rfl
      · rename_i hz
        rw [Symbol.lookup_cons, Symbol.lookup_cons, ih]
        by_cases hy : y = z
        · rw [if_pos hy, if_neg (fun h => hz (h.symm.trans hy)), if_pos hy]
        · rw [if_neg hy, if_neg hy]

theorem get?_insert (s : Substitution) (x y : Symbol) (t : Term) :
    (s.insert x t).get? y = if y = x then some t else s.get? y :=
  lookup_insertBinding x y t s.bindings

theorem lookup_mapTerms (f : Term → Term) (x : Symbol) (l : List (Symbol × Term)) :
    (l.map fun (y, t) => (y, f t)).lookup x = (l.lookup x).map f := by
  induction l with
  | nil => rfl
  | cons p rest ih =>
    obtain ⟨y, t⟩ := p
    rw [List.map_cons, Symbol.lookup_cons, Symbol.lookup_cons, ih]
    split <;> rfl

theorem get?_mapTerms (f : Term → Term) (s : Substitution) (x : Symbol) :
    (s.mapTerms f).get? x = (s.get? x).map f :=
  lookup_mapTerms f x s.bindings

theorem apply_insert_empty (x : Symbol) (t : Term) :
    (empty.insert x t).apply = Function.update Term.var x t := by
  funext y
  unfold apply
  rw [get?_insert, Function.update_apply]
  split <;> rfl

theorem apply_of_get? {s : Substitution} {x : Symbol} {t : Term} (h : s.get? x = some t) :
    s.apply x = t := by
  rw [apply, h]
  rfl

theorem apply_of_get?_none {s : Substitution} {x : Symbol} (h : s.get? x = none) :
    s.apply x = .var x := by
  rw [apply, h]
  rfl

/-- Binding replaces the variable in all terms bound before. -/
theorem get?_bind {s : Substitution} {x : Symbol} {t : Term} (h : t ≠ .var x) (y : Symbol) :
    (s.bind x t).get? y =
      if y = x then some t else (s.get? y).map (Term.subst (Function.update Term.var x t)) := by
  rw [bind, if_neg h, get?_insert, get?_mapTerms]
  congr 2
  funext u
  rw [Term.instantiate, apply_insert_empty]
  split
  · rfl
  · rename_i hx
    refine (Term.subst_eq_self fun z hz => ?_).symm
    rw [Function.update_of_ne]
    rintro rfl
    exact hx hz

section Bind

variable {s : Substitution}

theorem apply_bind_of_ne {x y : Symbol} (hxy : y ≠ x) (hy : ¬ (s.apply y).hasVar x = true)
    (t : Term) : (s.bind x t).apply y = s.apply y := by
  by_cases ht : t = .var x
  · rw [bind, if_pos ht]
  · have hget := get?_bind (s := s) ht y
    rw [if_neg hxy] at hget
    cases hs : s.get? y with
    | none =>
      rw [hs] at hget
      rw [apply_of_get?_none hs, apply_of_get?_none hget]
    | some u =>
      rw [apply_of_get? hs] at hy ⊢
      rw [hs] at hget
      rw [apply_of_get? hget]
      refine Term.subst_eq_self fun z hz => Function.update_of_ne ?_ _ _
      rintro rfl
      exact hy hz

theorem apply_bind_self {x : Symbol} {t : Term} (ht : ¬ t.hasVar x = true) :
    (s.bind x t).apply x = t := by
  refine apply_of_get? ?_
  rw [get?_bind, if_pos rfl]
  rintro rfl
  exact ht (by simp)

theorem apply_foldl_bind {pairs : List (Symbol × Term)} {y : Symbol}
    (hy : ∀ p ∈ pairs, y ≠ p.1 ∧ ¬ (s.apply y).hasVar p.1 = true) :
    (pairs.foldl (fun s p => s.bind p.1 p.2) s).apply y = s.apply y := by
  induction pairs generalizing s with
  | nil => rfl
  | cons p pairs ih =>
    obtain ⟨⟨hne, hvar⟩, hrest⟩ := List.forall_mem_cons.mp hy
    have hbind := apply_bind_of_ne hne hvar p.2
    rw [List.foldl_cons, ih (by rwa [hbind]), hbind]

/-- Variables are bound to the terms they are paired with if none of them occurs in
these terms. -/
theorem map_apply_ofList {xs : List Symbol} {ts : List Term} (hlength : ts.length = xs.length)
    (hxs : xs.Nodup) (hts : ∀ t ∈ ts, ∀ x ∈ xs, ¬ t.hasVar x = true) :
    xs.map (ofList (xs.zip ts)).apply = ts := by
  unfold ofList
  generalize empty = s
  induction xs generalizing ts s with
  | nil => exact (List.length_eq_zero_iff.mp hlength).symm
  | cons x xs ih =>
    cases ts with
    | nil => cases hlength
    | cons t ts =>
      obtain ⟨hx, hxs⟩ := List.nodup_cons.mp hxs
      obtain ⟨ht, hts⟩ := List.forall_mem_cons.mp hts
      rw [List.zip_cons_cons, List.foldl_cons, List.map_cons]
      congr 1
      · have hself : (s.bind x t).apply x = t := apply_bind_self (ht x List.mem_cons_self)
        rw [apply_foldl_bind, hself]
        intro p hp
        have hmem := (List.of_mem_zip hp).1
        rw [hself]
        exact ⟨fun h => hx (h ▸ hmem), ht p.1 (List.mem_cons_of_mem x hmem)⟩
      · exact ih (Nat.succ.inj hlength) hxs
          (fun u hu z hz => hts u hu z (List.mem_cons_of_mem x hz)) _

end Bind

/-- No bound variable occurs in a bound term. -/
def Settled (s : Substitution) : Prop :=
  ∀ x t, s.get? x = some t → ∀ y, t.hasVar y = true → s.get? y = none

theorem settled_empty : empty.Settled := by
  intro x t h
  cases h

/-- The map gives every bound variable the value of its term. -/
def Respects (θ : Symbol → Term) (s : Substitution) : Prop :=
  ∀ x t, s.get? x = some t → θ x = t.subst θ

theorem Respects.subst_apply {θ : Symbol → Term} {s : Substitution} (h : Respects θ s)
    (x : Symbol) : (s.apply x).subst θ = θ x := by
  cases hx : s.get? x with
  | none => rw [apply_of_get?_none hx, Term.subst_var]
  | some t => rw [apply_of_get? hx, h x t hx]

theorem Respects.subst_instantiate {θ : Symbol → Term} {s : Substitution} (h : Respects θ s)
    (t : Term) : (t.instantiate s).subst θ = t.subst θ := by
  rw [Term.instantiate, Term.subst_subst]
  exact Term.subst_congr fun x _ => h.subst_apply x

namespace Settled

variable {s : Substitution} (hs : s.Settled)

include hs

theorem get?_eq_none_of_hasVar {t : Term} {y : Symbol} (hy : (t.instantiate s).hasVar y = true) :
    s.get? y = none := by
  obtain ⟨x, -, hx⟩ := Term.hasVar_subst.mp hy
  cases hget : s.get? x with
  | none =>
    rw [apply_of_get?_none hget, Term.hasVar_var] at hx
    rw [hx, hget]
  | some u =>
    rw [apply_of_get? hget] at hx
    exact hs x u hget y hx

omit hs in
theorem instantiate_eq_self {t : Term} (h : ∀ y, t.hasVar y = true → s.get? y = none) :
    t.instantiate s = t :=
  Term.subst_eq_self fun y hy => apply_of_get?_none (h y hy)

theorem instantiate_bound {x : Symbol} {t : Term} (h : s.get? x = some t) :
    t.instantiate s = t :=
  instantiate_eq_self (hs x t h)

@[simp] theorem instantiate_instantiate (t : Term) :
    (t.instantiate s).instantiate s = t.instantiate s :=
  instantiate_eq_self fun _ hy => hs.get?_eq_none_of_hasVar hy

/-- After the first round nothing changes any more. -/
theorem settle_eq (rounds : Nat) (t : Term) :
    s.settle rounds (t.instantiate s) = t.instantiate s := by
  cases rounds with
  | zero => rfl
  | succ rounds => rw [settle, hs.instantiate_instantiate, if_pos rfl]

theorem resolve_eq (t : Term) : s.resolve t = t.instantiate s := hs.settle_eq (s.size + 1) t

theorem respects_apply : Respects s.apply s := by
  intro x t h
  rw [apply_of_get? h]
  exact (hs.instantiate_bound h).symm

end Settled

end Substitution

end Entailment
