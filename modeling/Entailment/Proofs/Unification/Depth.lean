import Entailment.Proofs.Unification.Exact
import Mathlib.Data.Finset.Card
import Mathlib.Tactic.Linarith
import Mathlib.Tactic.Ring

/-! The depth that unification is given suffices. A call on terms that are `d`
deep once instantiated, with `m` variables left in them, nests at most `3 d 2^m`
further calls: each binding takes away a variable and at most doubles the depth. -/
namespace Entailment

namespace Term

mutual

def depth : Term → Nat
  | .var _ => 1
  | .const _ => 1
  | .app _ args => depths args + 1

def depths : List Term → Nat
  | [] => 0
  | t :: ts => max t.depth (depths ts)

end

theorem depth_pos (t : Term) : 0 < t.depth := by
  cases t <;> rw [depth] <;> omega

theorem depths_le_iff {ts : List Term} {d : Nat} : depths ts ≤ d ↔ ∀ t ∈ ts, t.depth ≤ d := by
  induction ts with
  | nil => simp [depths]
  | cons t ts ih => simp [depths, ih]

theorem depth_app_le_iff {f : Symbol} {args : List Term} {d : Nat} :
    (app f args).depth ≤ d + 1 ↔ ∀ t ∈ args, t.depth ≤ d := by
  rw [depth, Nat.add_le_add_iff_right, depths_le_iff]

theorem depth_subst_le {θ : Symbol → Term} {d : Nat} {t : Term}
    (h : ∀ x, t.hasVar x = true → (θ x).depth ≤ d + 1) : (t.subst θ).depth ≤ t.depth + d := by
  induction t using rec_args with
  | var x =>
    have := h x (by simp)
    rw [subst_var, depth]
    omega
  | const c => rw [subst_const]; omega
  | app f args ih =>
    have hsum : (app f args).depth + d = depths args + d + 1 := by
      rw [depth]
      omega
    rw [subst_app, hsum, depth_app_le_iff]
    intro u hu
    obtain ⟨t, ht, rfl⟩ := List.mem_map.mp hu
    have hle := ih t ht fun x hx => h x ((hasVar_app x f args).mpr ⟨t, ht, hx⟩)
    have := depths_le_iff.mp (Nat.le_refl (depths args)) t ht
    omega

mutual

theorem depth_le_weight : ∀ t : Term, t.depth ≤ t.weight
  | .var _ => Nat.le_refl 1
  | .const _ => Nat.le_refl 1
  | .app f args => by
    rw [depth, weight]
    have := depths_le_weights args
    omega

theorem depths_le_weights : ∀ ts : List Term, depths ts ≤ weights ts
  | [] => Nat.le_refl 0
  | t :: ts => by
    rw [depths, weights]
    have := depth_le_weight t
    have := depths_le_weights ts
    omega

end

mutual

theorem length_addVars_le : ∀ (t : Term) (found : List Symbol),
    (t.addVars found).length ≤ found.length + t.varCount
  | .var x, found => by
    rw [addVars, varCount]
    split
    · omega
    · simp
  | .const _, found => by rw [addVars]; omega
  | .app _ args, found => by
    rw [addVars, varCount]
    exact length_addVarsAll_le args found

theorem length_addVarsAll_le : ∀ (ts : List Term) (found : List Symbol),
    (addVarsAll found ts).length ≤ found.length + varCounts ts
  | [], found => by rw [addVarsAll]; omega
  | t :: ts, found => by
    rw [addVarsAll, varCounts]
    have := length_addVars_le t found
    have := length_addVarsAll_le ts (t.addVars found)
    omega

end

theorem length_varsOf_le (ts : List Term) : (varsOf ts).length ≤ varCounts ts := by
  have := length_addVarsAll_le ts []
  rw [List.length_nil] at this
  unfold varsOf
  omega

end Term

namespace Substitution

/-- Once instantiated, the term is at most `d` deep and has no variables but
those of `X`. -/
def Fits (s : Substitution) (X : Finset Symbol) (d : Nat) (t : Term) : Prop :=
  (t.instantiate s).depth ≤ d ∧ ∀ x, (t.instantiate s).hasVar x = true → x ∈ X

/-- What may become of terms that fit: every binding made takes away a variable
and doubles their depth at most. -/
def Growth (s : Substitution) (X : Finset Symbol) (d : Nat) (s' : Substitution) : Prop :=
  ∃ (k : Nat) (X' : Finset Symbol), X'.card + k = X.card ∧
    ∀ w e, d ≤ e → s.Fits X e w → s'.Fits X' (e * 2 ^ k) w

section Growth

variable {s s' s'' : Substitution} {X : Finset Symbol} {d : Nat} {t u : Term}

theorem Fits.pos (h : s.Fits X d t) : 0 < d :=
  (Term.depth_pos _).trans_le h.1

theorem Fits.of_app {f : Symbol} {ts : List Term} (h : s.Fits X (d + 1) (.app f ts)) (ht : t ∈ ts) :
    s.Fits X d t := by
  have hinst : (Term.app f ts).instantiate s = .app f (ts.map (Term.instantiate s)) :=
    Term.subst_app s.apply f ts
  unfold Fits at h
  rw [hinst, Term.depth_app_le_iff] at h
  have hmem : t.instantiate s ∈ ts.map (Term.instantiate s) := List.mem_map_of_mem ht
  exact ⟨h.1 _ hmem, fun x hx => h.2 x ((Term.hasVar_app x f _).mpr ⟨_, hmem, hx⟩)⟩

theorem Fits.follow {x : Symbol} {b : Term} (hs : s.Settled) (hb : s.get? x = some b)
    (h : s.Fits X d (.var x)) : s.Fits X d b := by
  unfold Fits at *
  rw [hs.instantiate_bound hb]
  rwa [Term.instantiate, Term.subst_var, apply_of_get? hb] at h

theorem Growth.unchanged (s : Substitution) (X : Finset Symbol) (d : Nat) : s.Growth X d s :=
  ⟨0, X, rfl, fun w e _ hw => by simpa using hw⟩

theorem Growth.mono {e : Nat} (h : s.Growth X d s') (hle : d ≤ e) : s.Growth X e s' := by
  obtain ⟨k, X', hcard, hfits⟩ := h
  exact ⟨k, X', hcard, fun w e' he => hfits w e' (hle.trans he)⟩

theorem growth_bind {x : Symbol} (hx : s.get? x = none) (hxX : x ∈ X)
    (ht : s.Fits X d t) (hocc : (t.instantiate s).hasVar x = false)
    (hne : t.instantiate s ≠ .var x) : s.Growth X d (s.bind x (t.instantiate s)) := by
  refine ⟨1, X.erase x, Finset.card_erase_add_one hxX, fun w e hde hw => ?_⟩
  have hpos := ht.pos
  have hvalue (y : Symbol) :
      (Function.update Term.var x (t.instantiate s) y).depth ≤ (e - 1) + 1 := by
    by_cases hy : y = x
    · rw [hy, Function.update_self]
      have := ht.1
      omega
    · rw [Function.update_of_ne hy, Term.depth]
      omega
  unfold Fits
  rw [instantiate_bind hx hne]
  constructor
  · have hdeep := Term.depth_subst_le fun y (_ : (w.instantiate s).hasVar y = true) => hvalue y
    have := hw.1
    omega
  · intro y hy
    obtain ⟨z, hz, hyz⟩ := Term.hasVar_subst.mp hy
    by_cases hzx : z = x
    · rw [hzx, Function.update_self] at hyz
      refine Finset.mem_erase.mpr ⟨?_, ht.2 y hyz⟩
      rintro rfl
      rw [hyz] at hocc
      cases hocc
    · rw [Function.update_of_ne hzx, Term.hasVar_var] at hyz
      subst hyz
      exact Finset.mem_erase.mpr ⟨hzx, hw.2 y hz⟩

theorem growth_solve {x : Symbol} (hs : s.Settled) (hx : s.get? x = none)
    (hfx : s.Fits X d (.var x)) (ht : s.Fits X d t) (h : s.solve x t = .ok s') :
    s.Growth X d s' := by
  rw [solve, hs.resolve_eq] at h
  split at h
  · cases h
    exact Growth.unchanged s X d
  · rename_i hne
    split at h
    · cases h
    · rename_i hocc
      cases h
      refine growth_bind hx (hfx.2 x ?_) ht (Bool.of_not_eq_true hocc) hne
      rw [Term.instantiate, Term.subst_var, apply_of_get?_none hx, Term.hasVar_var]

end Growth

/-- Bindings to follow at the top of the term: a settled substitution leads from
a bound variable to a term that is none. -/
def hops (s : Substitution) : Term → Nat
  | .var x => if s.contains x then 1 else 0
  | _ => 0

theorem hops_le_one (s : Substitution) (t : Term) : s.hops t ≤ 1 := by
  unfold hops
  split
  · split <;> omega
  · omega

theorem hops_bound {s : Substitution} {x : Symbol} {b : Term} (h : s.get? x = some b) :
    s.hops (.var x) = 1 := by
  simp [hops, contains, h]

theorem hops_of_settled {s : Substitution} (hs : s.Settled) {x : Symbol} {b : Term}
    (h : s.get? x = some b) : s.hops b = 0 := by
  cases b with
  | var y => simp [hops, contains, hs x _ h y ((Term.hasVar_var y y).mpr rfl)]
  | const c => rfl
  | app f args => rfl

section Suffices

variable {n d : Nat} {X : Finset Symbol} {s : Substitution}

/-- A call answers, and what it binds lets terms grow in a controlled way. -/
def Answers (s : Substitution) (X : Finset Symbol) (d : Nat)
    (call : Option (Except UnifyError Substitution)) : Prop :=
  ∃ r, call = some r ∧ ∀ s', r = .ok s' → s.Growth X d s'

theorem answers_unifyAll {ts us : List Term}
    (hone : ∀ {s : Substitution} {X : Finset Symbol} {d : Nat} {t u : Term}, s.Settled →
      s.Fits X d t → s.Fits X d u → 3 * d * 2 ^ X.card ≤ n →
      s.Answers X d (unifyWithin n t u s))
    (hs : s.Settled) (hts : ∀ t ∈ ts, s.Fits X d t) (hus : ∀ u ∈ us, s.Fits X d u)
    (hn : 3 * d * 2 ^ X.card ≤ n) : s.Answers X d (unifyAll (unifyWithin n) ts us s) := by
  induction ts generalizing us s X d with
  | nil => exact ⟨_, rfl, by rintro s' ⟨⟩; exact Growth.unchanged s X d⟩
  | cons t ts ih =>
    cases us with
    | nil => exact ⟨_, rfl, by rintro s' ⟨⟩; exact Growth.unchanged s X d⟩
    | cons u us =>
      obtain ⟨r, hr, hgrowth⟩ :=
        hone hs (hts t List.mem_cons_self) (hus u List.mem_cons_self) hn
      cases r with
      | error e =>
        exact ⟨.error e, by rw [unifyAll, hr], nofun⟩
      | ok s₁ =>
        obtain ⟨k, X₁, hcard, hfits⟩ := hgrowth s₁ rfl
        have hn₁ : 3 * (d * 2 ^ k) * 2 ^ X₁.card ≤ n := by
          calc 3 * (d * 2 ^ k) * 2 ^ X₁.card = 3 * d * 2 ^ (X₁.card + k) := by ring
            _ ≤ n := by rw [hcard]; exact hn
        obtain ⟨r, hrest, hgrowth'⟩ := ih (unifyWithin_exact hs hr).1
          (fun w hw => hfits w d le_rfl (hts w (List.mem_cons_of_mem t hw)))
          (fun w hw => hfits w d le_rfl (hus w (List.mem_cons_of_mem u hw))) hn₁
        refine ⟨r, by rw [unifyAll, hr]; exact hrest, fun s' hs' => ?_⟩
        obtain ⟨k', X', hcard', hfits'⟩ := hgrowth' s' hs'
        refine ⟨k + k', X', by omega, fun w e hde hw => ?_⟩
        have := hfits' w (e * 2 ^ k) (Nat.mul_le_mul_right _ hde) (hfits w e hde hw)
        rwa [Nat.mul_assoc, ← Nat.pow_add] at this

theorem answers_unifyWithin {t u : Term} (hs : s.Settled) (ht : s.Fits X d t) (hu : s.Fits X d u)
    (hn : 3 * d * 2 ^ X.card + s.hops t + s.hops u ≤ n + 2) :
    s.Answers X d (unifyWithin n t u s) := by
  -- Each side is followed at most once before the terms lose a level: three calls for a level.
  induction n generalizing s X d t u with
  | zero =>
    have : 0 < d * 2 ^ X.card := Nat.mul_pos ht.pos (Nat.two_pow_pos _)
    rw [Nat.mul_assoc] at hn
    omega
  | succ n ih =>
    obtain ⟨move, hmove, heq⟩ := exists_move s t u
    rw [heq]
    cases hmove with
    | same => exact ⟨_, rfl, by rintro s' ⟨⟩; exact Growth.unchanged s X d⟩
    | followLeft hb =>
      rw [hops_bound hb] at hn
      exact ih hs (ht.follow hs hb) hu (by rw [hops_of_settled hs hb]; omega)
    | followRight _ hb =>
      rw [hops_bound hb] at hn
      exact ih hs ht (hu.follow hs hb) (by rw [hops_of_settled hs hb]; omega)
    | solveLeft hx => exact ⟨_, rfl, fun s' hs' => growth_solve hs hx ht hu hs'⟩
    | solveRight hy => exact ⟨_, rfl, fun s' hs' => growth_solve hs hy hu ht hs'⟩
    | @descend f ts us hlen =>
      obtain ⟨d, rfl⟩ := Nat.exists_eq_add_one.mpr ht.pos
      have hn' : 3 * d * 2 ^ X.card ≤ n := by
        have hroom : 3 * (d + 1) * 2 ^ X.card = 3 * d * 2 ^ X.card + 3 * 2 ^ X.card := by ring
        have := Nat.two_pow_pos X.card
        omega
      obtain ⟨r, hr, hgrowth⟩ := answers_unifyAll
        (fun {s _ _ t u} hs ht hu hle => ih hs ht hu (by
          have := s.hops_le_one t
          have := s.hops_le_one u
          omega))
        hs (fun t => ht.of_app) (fun u => hu.of_app) hn'
      exact ⟨r, hr, fun s' hs' => (hgrowth s' hs').mono (Nat.le_succ d)⟩
    | clash => exact ⟨_, rfl, nofun⟩

/-- Terms fit the variables and the size that they have together with the bound terms. -/
theorem fits_start (s : Substitution) {t : Term} {ts : List Term} (ht : t ∈ ts) :
    s.Fits (Term.varsOf (ts ++ s.bindings.map (·.2))).toFinset
      (Term.weights ts + Term.weights (s.bindings.map (·.2))) t := by
  have hbound {x : Symbol} {b : Term} (hb : s.get? x = some b) : b ∈ s.bindings.map (·.2) :=
    List.mem_map_of_mem (Symbol.mem_of_lookup hb)
  constructor
  · have hdepth := Term.depth_subst_le (t := t) (θ := s.apply)
      (d := Term.weights (s.bindings.map (·.2))) fun x _ => by
        cases hx : s.get? x with
        | none =>
          rw [apply_of_get?_none hx, Term.depth]
          omega
        | some b =>
          rw [apply_of_get? hx]
          have := Term.depth_le_weight b
          have := Term.weight_le_weights (hbound hx)
          omega
    have := Term.depth_le_weight t
    have := Term.weight_le_weights ht
    rw [Term.instantiate]
    omega
  · intro y hy
    obtain ⟨x, hx, hyx⟩ := Term.hasVar_subst.mp hy
    rw [List.mem_toFinset, Term.mem_varsOf]
    cases hget : s.get? x with
    | none =>
      rw [apply_of_get?_none hget, Term.hasVar_var] at hyx
      exact ⟨t, List.mem_append_left _ ht, hyx ▸ hx⟩
    | some b =>
      rw [apply_of_get? hget] at hyx
      exact ⟨b, List.mem_append_right _ (hbound hget), hyx⟩

/-- The depth computed from the sizes of the terms suffices. -/
theorem exists_unifyWithin_depthBound (hs : s.Settled) (t u : Term) :
    ∃ r, s.unifyWithin (s.depthBound t u) t u = some r := by
  have hfits {w : Term} (hw : w ∈ [t, u]) := s.fits_start hw
  set range := s.bindings.map (·.2)
  have hweights : Term.weights [t, u] + Term.weights range = Term.weights (t :: u :: range) := by
    simp only [Term.weights]
    omega
  have hcard : (Term.varsOf (t :: u :: range)).toFinset.card ≤ Term.varCounts (t :: u :: range) :=
    (List.toFinset_card_le _).trans (Term.length_varsOf_le _)
  have hpow := Nat.pow_le_pow_right (n := 2) (by omega) hcard
  refine (answers_unifyWithin hs (hfits (by simp)) (hfits (by simp)) ?_).imp fun r hr => hr.1
  have hbound : s.depthBound t u =
      (Term.weights (t :: u :: range) + 1) * (4 * 2 ^ Term.varCounts (t :: u :: range)) := by
    change _ * 2 ^ (_ + 2) = _
    rw [Nat.pow_add, Nat.mul_comm (2 ^ _)]
  rw [hweights, hbound]
  have := s.hops_le_one t
  have := s.hops_le_one u
  change 3 * _ * 2 ^ (Term.varsOf (t :: u :: range)).toFinset.card + _ + _ ≤ _
  have hmul := Nat.mul_le_mul_left (3 * Term.weights (t :: u :: range)) hpow
  have hpos := Nat.two_pow_pos (Term.varCounts (t :: u :: range))
  nlinarith

theorem unifyAll_mono
    {one two : Term → Term → Substitution → Option (Except UnifyError Substitution)}
    (hmono : ∀ {t u s r}, one t u s = some r → two t u s = some r) {ts us : List Term}
    {r : Except UnifyError Substitution} (h : unifyAll one ts us s = some r) :
    unifyAll two ts us s = some r := by
  induction ts generalizing us s with
  | nil => exact h
  | cons t ts ih =>
    cases us with
    | nil => exact h
    | cons u us =>
      rw [unifyAll] at h ⊢
      cases hone : one t u s with
      | none => simp [hone] at h
      | some first =>
        rw [hone] at h
        rw [hmono hone]
        cases first with
        | error e => exact h
        | ok s' => exact ih h

/-- A call that has answered answers the same when it may nest deeper. -/
theorem unifyWithin_mono {m : Nat} {t u : Term} {r : Except UnifyError Substitution}
    (h : unifyWithin m t u s = some r) (hle : m ≤ n) : unifyWithin n t u s = some r := by
  induction m generalizing n t u s r with
  | zero => cases h
  | succ m ih =>
    obtain ⟨n, rfl⟩ := Nat.exists_eq_add_one.mpr (Nat.zero_lt_of_lt hle)
    have hle := Nat.le_of_succ_le_succ hle
    obtain ⟨move, hmove, heq⟩ := exists_move s t u
    rw [heq] at h ⊢
    cases hmove with
    | same | solveLeft | solveRight | clash => exact h
    | followLeft | followRight => exact ih h hle
    | descend => exact unifyAll_mono (fun hone => ih hone hle) h

/-- Unification is not cut short: no greater depth would change what it comes to. -/
theorem unifyWithin_eq_unify (hs : s.Settled) {t u : Term} (hn : s.depthBound t u ≤ n) :
    s.unifyWithin n t u = some (t.unify u s) := by
  obtain ⟨r, hr⟩ := exists_unifyWithin_depthBound hs t u
  rw [Term.unify, hr]
  exact unifyWithin_mono hr hn

end Suffices

end Substitution

end Entailment
