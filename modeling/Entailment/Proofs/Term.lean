import Entailment.Term.Order
import Mathlib.Logic.Function.Basic
import Mathlib.Order.Basic

/-! Variables of terms and what substitution does to them. -/
namespace Entailment.Term

@[simp] theorem hasVar_var (x y : Symbol) : (var y).hasVar x = true ↔ x = y := by
  rw [hasVar, beq_iff_eq]

@[simp] theorem hasVar_const (x c : Symbol) : (const c).hasVar x = false := by
  rw [hasVar]

@[simp] theorem hasVar_app (x f : Symbol) (args : List Term) :
    (app f args).hasVar x = true ↔ ∃ t ∈ args, t.hasVar x = true := by
  rw [hasVar, anyHasVar_eq, List.any_eq_true]

theorem subst_congr {θ η : Symbol → Term} {t : Term}
    (h : ∀ x, t.hasVar x = true → θ x = η x) : t.subst θ = t.subst η := by
  induction t using rec_args with
  | var x => exact h x (by simp)
  | const c => rfl
  | app f args ih =>
    rw [subst_app, subst_app]
    congr 1
    apply List.map_congr_left
    intro t ht
    exact ih t ht fun x hx => h x ((hasVar_app x f args).mpr ⟨t, ht, hx⟩)

@[simp] theorem subst_var_eq (t : Term) : t.subst var = t := by
  induction t using rec_args with
  | var x => rfl
  | const c => rfl
  | app f args ih =>
    rw [subst_app]
    congr 1
    exact (List.map_congr_left ih).trans (List.map_id' args)

theorem subst_eq_self {θ : Symbol → Term} {t : Term}
    (h : ∀ x, t.hasVar x = true → θ x = .var x) : t.subst θ = t :=
  (subst_congr h).trans (subst_var_eq t)

theorem subst_subst (θ η : Symbol → Term) (t : Term) :
    (t.subst θ).subst η = t.subst fun x => (θ x).subst η := by
  induction t using rec_args with
  | var x => rfl
  | const c => rfl
  | app f args ih =>
    simp only [subst_app, List.map_map]
    congr 1
    exact List.map_congr_left ih

theorem hasVar_subst {θ : Symbol → Term} {t : Term} {y : Symbol} :
    (t.subst θ).hasVar y = true ↔ ∃ x, t.hasVar x = true ∧ (θ x).hasVar y = true := by
  induction t using rec_args with
  | var x => simp
  | const c => simp
  | app f args ih =>
    simp only [subst_app, hasVar_app, List.mem_map]
    constructor
    · rintro ⟨_, ⟨t, ht, rfl⟩, hy⟩
      obtain ⟨x, hx, hxy⟩ := (ih t ht).mp hy
      exact ⟨x, ⟨t, ht, hx⟩, hxy⟩
    · rintro ⟨x, ⟨t, ht, hx⟩, hxy⟩
      exact ⟨_, ⟨t, ht, rfl⟩, (ih t ht).mpr ⟨x, hx, hxy⟩⟩

theorem mem_addVars {found : List Symbol} {t : Term} {x : Symbol} :
    x ∈ t.addVars found ↔ x ∈ found ∨ t.hasVar x = true := by
  induction t using rec_args generalizing found with
  | var y =>
    rw [addVars]
    split
    · rename_i hy
      simp only [List.contains_iff_mem] at hy
      simp only [hasVar_var]
      exact ⟨.inl, fun h => h.elim id fun hxy => hxy ▸ hy⟩
    · simp
  | const c => simp [addVars]
  | app f args ih =>
    rw [addVars, addVarsAll_eq, hasVar_app]
    induction args generalizing found with
    | nil => simp
    | cons t ts ihs =>
      rw [List.foldl_cons, ihs fun u hu => ih u (List.mem_cons_of_mem t hu),
        ih t List.mem_cons_self]
      simp [or_assoc]

theorem mem_varsOf {ts : List Term} {x : Symbol} :
    x ∈ varsOf ts ↔ ∃ t ∈ ts, t.hasVar x = true := by
  have h : x ∈ (app default ts).addVars [] ↔ _ := mem_addVars
  rw [addVars] at h
  rw [varsOf, h, hasVar_app]
  simp

theorem weight_le_weights {t : Term} {ts : List Term} (h : t ∈ ts) : t.weight ≤ weights ts := by
  induction ts with
  | nil => cases h
  | cons u us ih =>
    rw [weights]
    rcases List.mem_cons.mp h with rfl | h
    · omega
    · have := ih h
      omega

/-- The value of a variable is no larger than that of a term it occurs in. -/
theorem weight_le_weight_subst (θ : Symbol → Term) {t : Term} {x : Symbol}
    (h : t.hasVar x = true) : (θ x).weight ≤ (t.subst θ).weight := by
  induction t using rec_args with
  | var y =>
    rw [(hasVar_var x y).mp h]
    exact Nat.le_refl _
  | const c => simp at h
  | app f args ih =>
    obtain ⟨t, ht, hx⟩ := (hasVar_app x f args).mp h
    rw [subst_app, weight]
    have hmem := weight_le_weights (List.mem_map_of_mem (f := subst θ) ht)
    have := ih t ht hx
    omega

/-- No substitution makes a variable equal to a larger term that contains it. -/
theorem subst_ne_of_hasVar (θ : Symbol → Term) {t : Term} {x : Symbol}
    (h : t.hasVar x = true) (hne : t ≠ .var x) : θ x ≠ t.subst θ := by
  intro heq
  cases t with
  | var y => exact hne (congrArg var ((hasVar_var x y).mp h).symm)
  | const c => simp at h
  | app f args =>
    obtain ⟨t, ht, hx⟩ := (hasVar_app x f args).mp h
    have hlt : (t.subst θ).weight < ((app f args).subst θ).weight := by
      rw [subst_app, weight]
      have := weight_le_weights (List.mem_map_of_mem (f := subst θ) ht)
      omega
    have := weight_le_weight_subst θ hx
    rw [heq] at this
    omega

end Entailment.Term
