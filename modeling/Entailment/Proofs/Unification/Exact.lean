import Entailment.Proofs.Substitution
import Entailment.Unification

/-! Unification is exact. From a settled substitution it computes a settled one
that is respected by precisely the maps that respect the first and make the two
terms equal, or fails when there is no such map. -/
namespace Entailment

namespace Substitution

section Bind

variable {s : Substitution} {x : Symbol} {t : Term}

theorem settled_bind (hs : s.Settled) (ht : ∀ y, t.hasVar y = true → s.get? y = none)
    (hx : t.hasVar x = false) : (s.bind x t).Settled := by
  have hne : t ≠ .var x := by
    rintro rfl
    simp [Term.hasVar] at hx
  have hfree (y : Symbol) (hy : t.hasVar y = true) : (s.bind x t).get? y = none := by
    have hyx : y ≠ x := by
      rintro rfl
      rw [hy] at hx
      cases hx
    rw [get?_bind hne, if_neg hyx, ht y hy]
    rfl
  intro y u hu z hz
  rw [get?_bind hne] at hu
  split at hu
  · cases hu
    exact hfree z hz
  · obtain ⟨w, hw, rfl⟩ := Option.map_eq_some_iff.mp hu
    obtain ⟨x', hx', hzx'⟩ := Term.hasVar_subst.mp hz
    by_cases heq : x' = x
    · rw [heq, Function.update_self] at hzx'
      exact hfree z hzx'
    · rw [Function.update_of_ne heq, Term.hasVar_var] at hzx'
      rw [hzx', get?_bind hne, if_neg heq, hs y w hw x' hx']
      rfl

theorem respects_bind (hx : s.get? x = none) (ht : t ≠ .var x) (θ : Symbol → Term) :
    Respects θ (s.bind x t) ↔ Respects θ s ∧ θ x = t.subst θ := by
  have hupdate (hθ : θ x = t.subst θ) (u : Term) :
      (u.subst (Function.update Term.var x t)).subst θ = u.subst θ := by
    rw [Term.subst_subst]
    apply Term.subst_congr
    intro z _
    by_cases hz : z = x
    · rw [hz, Function.update_self, hθ]
    · rw [Function.update_of_ne hz, Term.subst_var]
  constructor
  · intro h
    have hθ : θ x = t.subst θ := h x t (by rw [get?_bind ht, if_pos rfl])
    refine ⟨fun y u hu => ?_, hθ⟩
    have hyx : y ≠ x := by
      rintro rfl
      rw [hx] at hu
      cases hu
    rw [h y _ (by rw [get?_bind ht, if_neg hyx, hu, Option.map_some]), hupdate hθ]
  · rintro ⟨hs, hθ⟩ y u hu
    rw [get?_bind ht] at hu
    split at hu
    · rename_i hy
      cases hu
      rw [hy, hθ]
    · obtain ⟨w, hw, rfl⟩ := Option.map_eq_some_iff.mp hu
      rw [hupdate hθ, hs y w hw]

theorem instantiate_bind (hx : s.get? x = none) (ht : t ≠ .var x) (u : Term) :
    u.instantiate (s.bind x t) = (u.instantiate s).subst (Function.update Term.var x t) := by
  rw [Term.instantiate, Term.instantiate, Term.subst_subst]
  apply Term.subst_congr
  intro y _
  rw [apply, get?_bind ht]
  by_cases hy : y = x
  · rw [if_pos hy, hy, apply_of_get?_none hx, Term.subst_var, Function.update_self, Option.getD_some]
  · rw [if_neg hy]
    cases hget : s.get? y with
    | none =>
      rw [apply_of_get?_none hget, Term.subst_var, Function.update_of_ne hy]
      rfl
    | some w =>
      rw [apply_of_get? hget]
      rfl

end Bind

/-- The result tells which of the maps that respect `s` meet the condition: those
that respect the substitution it holds, or none. -/
def Exact (s : Substitution) (condition : (Symbol → Term) → Prop) :
    Except UnifyError Substitution → Prop
  | .ok s' => s'.Settled ∧ ∀ θ, Respects θ s' ↔ Respects θ s ∧ condition θ
  | .error _ => ∀ θ, Respects θ s → ¬ condition θ

namespace Exact

variable {s : Substitution} {P Q : (Symbol → Term) → Prop} {r : Except UnifyError Substitution}

theorem congr (h : Exact s P r) (hPQ : ∀ θ, Respects θ s → (P θ ↔ Q θ)) : Exact s Q r := by
  cases r with
  | error e => exact fun θ hθ hQ => h θ hθ ((hPQ θ hθ).mpr hQ)
  | ok s' =>
    refine ⟨h.1, fun θ => (h.2 θ).trans ?_⟩
    exact and_congr_right fun hθ => hPQ θ hθ

theorem unchanged (hs : s.Settled) (hP : ∀ θ, Respects θ s → P θ) : Exact s P (.ok s) :=
  ⟨hs, fun θ => ⟨fun hθ => ⟨hθ, hP θ hθ⟩, And.left⟩⟩

/-- One condition after the other. -/
theorem trans {s' : Substitution} (h : Exact s P (.ok s')) (h' : Exact s' Q r) :
    Exact s (fun θ => P θ ∧ Q θ) r := by
  cases r with
  | error e => exact fun θ hθ hPQ => h' θ ((h.2 θ).mpr ⟨hθ, hPQ.1⟩) hPQ.2
  | ok s'' =>
    refine ⟨h'.1, fun θ => ?_⟩
    rw [h'.2 θ, h.2 θ, and_assoc]

end Exact

theorem solve_exact {s : Substitution} (hs : s.Settled) {x : Symbol} (hx : s.get? x = none)
    (t : Term) : s.Exact (fun θ => θ x = t.subst θ) (s.solve x t) := by
  have hcond : ∀ θ, Respects θ s → (θ x = (t.instantiate s).subst θ ↔ θ x = t.subst θ) :=
    fun θ hθ => by rw [hθ.subst_instantiate]
  refine Exact.congr ?_ hcond
  rw [solve, hs.resolve_eq]
  split
  · rename_i heq
    exact Exact.unchanged hs fun θ _ => by rw [heq, Term.subst_var]
  · rename_i hne
    split
    · rename_i hocc
      exact fun θ _ => Term.subst_ne_of_hasVar θ hocc hne
    · rename_i hocc
      exact ⟨settled_bind hs (fun y hy => hs.get?_eq_none_of_hasVar hy) (Bool.of_not_eq_true hocc),
        respects_bind hx hne⟩

/-- The term is no variable with a binding. -/
def Loose (s : Substitution) (t : Term) : Prop := ∀ x, t = .var x → s.get? x = none

/-- What unification does next with two terms, as a function of the depth left
for nested calls. -/
inductive Move (s : Substitution) :
    Term → Term → (Nat → Option (Except UnifyError Substitution)) → Prop
  | same (t : Term) : Move s t t fun _ => some (.ok s)
  | followLeft {x : Symbol} {b u : Term} (hb : s.get? x = some b) :
      Move s (.var x) u fun depth => unifyWithin depth b u s
  | followRight {t b : Term} {y : Symbol} (ht : s.Loose t) (hb : s.get? y = some b) :
      Move s t (.var y) fun depth => unifyWithin depth t b s
  | solveLeft {x : Symbol} {u : Term} (hx : s.get? x = none) :
      Move s (.var x) u fun _ => some (s.solve x u)
  | solveRight {t : Term} {y : Symbol} (hy : s.get? y = none) :
      Move s t (.var y) fun _ => some (s.solve y t)
  | descend {f : Symbol} {ts us : List Term} (hlen : ts.length = us.length) :
      Move s (.app f ts) (.app f us) fun depth => unifyAll (unifyWithin depth) ts us s
  | clash {t u : Term} (hne : ∀ θ, t.subst θ ≠ u.subst θ) :
      Move s t u fun _ => some (s.clash t u)

theorem exists_move_var (s : Substitution) (x : Symbol) (u : Term) :
    ∃ move, Move s (.var x) u move ∧ ∀ depth, unifyWithin (depth + 1) (.var x) u s = move depth := by
  by_cases hu : u = .var x
  · subst hu
    exact ⟨_, .same _, fun depth => by rw [unifyWithin, if_pos rfl]⟩
  cases hx : s.get? x with
  | some b =>
    refine ⟨_, .followLeft hx, fun depth => ?_⟩
    cases u <;> simp only [unifyWithin, if_neg hu, hx]
  | none =>
    cases u with
    | var y =>
      cases hy : s.get? y with
      | some b =>
        refine ⟨_, .followRight ?_ hy, fun depth => by rw [unifyWithin, if_neg hu, hx]; simp only [hy]⟩
        rintro z ⟨⟩
        exact hx
      | none => exact ⟨_, .solveLeft hx, fun depth => by rw [unifyWithin, if_neg hu, hx]; simp only [hy]⟩
    | const c => exact ⟨_, .solveLeft hx, fun depth => by rw [unifyWithin, if_neg hu, hx]; nofun⟩
    | app g us => exact ⟨_, .solveLeft hx, fun depth => by rw [unifyWithin, if_neg hu, hx]; nofun⟩

/-- Every pair of terms has its move. -/
theorem exists_move (s : Substitution) (t u : Term) :
    ∃ move, Move s t u move ∧ ∀ depth, unifyWithin (depth + 1) t u s = move depth := by
  cases t with
  | var x => exact exists_move_var s x u
  | const c =>
    cases u with
    | var y =>
      cases hy : s.get? y with
      | some b => exact ⟨_, .followRight nofun hy, fun depth => by rw [unifyWithin, hy]; nofun⟩
      | none => exact ⟨_, .solveRight hy, fun depth => by rw [unifyWithin, hy]; nofun⟩
    | const d =>
      by_cases hcd : c = d
      · subst hcd
        exact ⟨_, .same _, fun depth => by rw [unifyWithin, if_pos rfl]⟩
      · refine ⟨_, .clash fun θ h => hcd (by simpa using h), fun depth => ?_⟩
        rw [unifyWithin, if_neg hcd]
    | app g us => exact ⟨_, .clash fun θ h => by simp at h, fun depth => by rw [unifyWithin] <;> nofun⟩
  | app f ts =>
    cases u with
    | var y =>
      cases hy : s.get? y with
      | some b => exact ⟨_, .followRight nofun hy, fun depth => by rw [unifyWithin, hy]; nofun⟩
      | none => exact ⟨_, .solveRight hy, fun depth => by rw [unifyWithin, hy]; nofun⟩
    | const d => exact ⟨_, .clash fun θ h => by simp at h, fun depth => by rw [unifyWithin] <;> nofun⟩
    | app g us =>
      by_cases hfg : f = g ∧ ts.length = us.length
      · obtain ⟨rfl, hlen⟩ := hfg
        exact ⟨_, .descend hlen, fun depth => by rw [unifyWithin, if_pos ⟨rfl, hlen⟩]⟩
      · refine ⟨_, .clash fun θ h => hfg ?_, fun depth => by rw [unifyWithin, if_neg hfg]⟩
        simp only [Term.subst_app, Term.app.injEq] at h
        exact ⟨h.1, by simpa using congrArg List.length h.2⟩

theorem unifyAll_exact
    {one : Term → Term → Substitution → Option (Except UnifyError Substitution)}
    (hone : ∀ {t u s r}, s.Settled → one t u s = some r →
      s.Exact (fun θ => t.subst θ = u.subst θ) r)
    {ts us : List Term} {s : Substitution} {r : Except UnifyError Substitution}
    (hs : s.Settled) (hlen : ts.length = us.length) (h : unifyAll one ts us s = some r) :
    s.Exact (fun θ => ts.map (Term.subst θ) = us.map (Term.subst θ)) r := by
  induction ts generalizing us s with
  | nil =>
    obtain rfl : us = [] := List.length_eq_zero_iff.mp hlen.symm
    cases h
    exact Exact.unchanged hs fun _ _ => rfl
  | cons t ts ih =>
    cases us with
    | nil => cases hlen
    | cons u us =>
      simp only [List.map_cons, List.cons.injEq]
      rw [unifyAll] at h
      split at h
      · rename_i s' hfirst
        have hhead := hone hs hfirst
        exact hhead.trans (ih hhead.1 (Nat.succ.inj hlen) h)
      · rename_i hfail
        cases r with
        | ok s' => exact absurd h (hfail s')
        | error e => exact fun θ hθ heq => hone hs h θ hθ heq.1

theorem unifyWithin_exact {depth : Nat} {t u : Term} {s : Substitution}
    {r : Except UnifyError Substitution} (hs : s.Settled) (h : unifyWithin depth t u s = some r) :
    s.Exact (fun θ => t.subst θ = u.subst θ) r := by
  induction depth generalizing t u s r with
  | zero => cases h
  | succ depth ih =>
    obtain ⟨move, hmove, heq⟩ := exists_move s t u
    rw [heq] at h
    cases hmove with
    | same => cases h; exact Exact.unchanged hs fun _ _ => rfl
    | @followLeft x b u hb =>
      exact (ih hs h).congr fun θ hθ => by rw [Term.subst_var, hθ x b hb]
    | @followRight t b y _ hb =>
      exact (ih hs h).congr fun θ hθ => by rw [Term.subst_var, hθ y b hb]
    | solveLeft hx => cases h; exact solve_exact hs hx u
    | solveRight hy =>
      cases h
      exact (solve_exact hs hy t).congr fun θ _ => eq_comm
    | descend hlen =>
      refine (unifyAll_exact ih hs hlen h).congr fun θ _ => ?_
      simp only [Term.subst_app, Term.app.injEq, true_and]
    | clash hne => cases h; exact fun θ _ => hne θ

end Substitution

end Entailment
