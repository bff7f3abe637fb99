import Entailment.Proofs.Subsumption

/-! Matching is exact. It succeeds if and only if some map that gives the bound
variables their terms turns the pattern into the target, and then it has bound the
variables of the pattern and no others. -/
namespace Entailment

namespace Substitution

variable {b b' : Substitution} {θ : Symbol → Term} {x y : Symbol}

/-- The map gives every bound variable its term. -/
def Agrees (b : Substitution) (θ : Symbol → Term) : Prop := ∀ x t, b.get? x = some t → θ x = t

theorem contains_iff : b.contains x = true ↔ ∃ t, b.get? x = some t := Option.isSome_iff_exists

theorem agrees_empty (θ : Symbol → Term) : empty.Agrees θ := by
  intro x t h
  cases h

theorem Extends.agrees_apply (h : b'.Extends b) : b.Agrees b'.apply :=
  fun x t hx => apply_of_get? (h x t hx)

/-- Maps that agree with the bindings agree with each other on the bound variables. -/
theorem Agrees.agrees_iff {η : Symbol → Term} (h : b.Agrees θ) :
    b.Agrees η ↔ ∀ x, b.contains x = true → η x = θ x := by
  constructor
  · intro hη x hx
    obtain ⟨t, ht⟩ := contains_iff.mp hx
    rw [hη x t ht, h x t ht]
  · intro hη x t ht
    rw [hη x (contains_iff.mpr ⟨t, ht⟩), h x t ht]

theorem Agrees.of_extends (h : b'.Agrees θ) (hb : b'.Extends b) : b.Agrees θ :=
  fun x t hx => h x t (hb x t hx)

theorem Agrees.insert (h : b.Agrees θ) (x : Symbol) : (b.insert x (θ x)).Agrees θ := by
  intro y t hy
  rw [get?_insert] at hy
  split at hy
  · rename_i hyx
    rw [hyx]
    exact Option.some.inj hy
  · exact h y t hy

theorem contains_insert {t : Term} :
    (b.insert x t).contains y = true ↔ b.contains y = true ∨ y = x := by
  rw [contains, get?_insert]
  split
  · rename_i hyx
    simp [hyx]
  · rename_i hyx
    simp [hyx, contains]

/-- What a match of `ps` with `ts` makes of the bindings `b`: it keeps them, binds the
variables of the patterns and turns the patterns into the targets. -/
structure Matched (b : Substitution) (ps ts : List Term) (b' : Substitution) : Prop where
  bound : ∀ x, b'.contains x = true ↔ b.contains x = true ∨ ∃ p ∈ ps, p.hasVar x = true
  kept : b'.Extends b
  sends : ps.map (Term.instantiate b') = ts

theorem Matched.agrees {ps ts : List Term} (h : Matched b ps ts b') : b.Agrees b'.apply :=
  h.kept.agrees_apply

/-- The bindings determine what the patterns become, since they bind all variables. -/
theorem Matched.map_subst {ps ts : List Term} (h : Matched b ps ts b') (hθ : b'.Agrees θ) :
    ps.map (Term.subst θ) = ts := by
  rw [← h.sends]
  refine List.map_congr_left fun p hp => Term.subst_congr fun x hx => ?_
  obtain ⟨t, ht⟩ := contains_iff.mp ((h.bound x).mpr (.inr ⟨p, hp, hx⟩))
  rw [hθ x t ht, apply_of_get? ht]

end Substitution

open Substitution

namespace Term

section Complete

variable {θ : Symbol → Term}

mutual

/-- A map that agrees with the bindings is never contradicted. -/
theorem exists_matchTerm : ∀ (p : Term) {b : Substitution}, b.Agrees θ →
    ∃ b', p.matchTerm (p.subst θ) b = (true, b') ∧ b'.Agrees θ
  | .var x, b, hb => by
    rw [subst_var, matchTerm]
    cases hx : b.get? x with
    | some u => exact ⟨b, by simp [hb x u hx], hb⟩
    | none => exact ⟨_, rfl, hb.insert x⟩
  | .const c, b, hb => ⟨b, by simp [matchTerm], hb⟩
  | .app f ps, b, hb => by
    rw [subst_app, matchTerm, if_pos ⟨rfl, by simp⟩]
    exact exists_matchAll ps hb

theorem exists_matchAll : ∀ (ps : List Term) {b : Substitution}, b.Agrees θ →
    ∃ b', matchAll ps (ps.map (subst θ)) b = (true, b') ∧ b'.Agrees θ
  | [], b, hb => ⟨b, rfl, hb⟩
  | p :: ps, b, hb => by
    obtain ⟨b₁, hfirst, hb₁⟩ := exists_matchTerm p hb
    obtain ⟨b', hrest, hb'⟩ := exists_matchAll ps hb₁
    refine ⟨b', ?_, hb'⟩
    rw [List.map_cons, matchAll, hfirst]
    exact hrest

end

end Complete

mutual

theorem contains_matchTerm : ∀ {p t : Term} {b b' : Substitution},
    p.matchTerm t b = (true, b') →
    ∀ x, b'.contains x = true ↔ b.contains x = true ∨ p.hasVar x = true
  | .var y, t, b, b', h => by
    intro x
    rw [matchTerm] at h
    rw [hasVar_var]
    split at h
    · rename_i u hu
      obtain ⟨-, rfl⟩ := Prod.mk.inj h
      refine ⟨.inl, fun hx => hx.elim id ?_⟩
      rintro rfl
      exact contains_iff.mpr ⟨u, hu⟩
    · obtain ⟨-, rfl⟩ := Prod.mk.inj h
      exact contains_insert
  | .const c, .const d, b, b', h => by
    obtain ⟨-, rfl⟩ := Prod.mk.inj h
    simp
  | .app f ps, .app g ts, b, b', h => by
    intro x
    rw [matchTerm] at h
    rw [hasVar_app]
    split at h
    · rename_i heq
      exact contains_matchAll heq.2 h x
    · cases h
  | .const _, .var _, _, _, h => by cases h
  | .const _, .app .., _, _, h => by cases h
  | .app .., .var _, _, _, h => by cases h
  | .app .., .const _, _, _, h => by cases h

theorem contains_matchAll : ∀ {ps ts : List Term} {b b' : Substitution},
    ps.length = ts.length → matchAll ps ts b = (true, b') →
    ∀ x, b'.contains x = true ↔ b.contains x = true ∨ ∃ p ∈ ps, p.hasVar x = true
  | [], [], b, b', _, h => by
    obtain ⟨-, rfl⟩ := Prod.mk.inj h
    simp
  | [], _ :: _, _, _, hlen, _ => by cases hlen
  | _ :: _, [], _, _, hlen, _ => by cases hlen
  | p :: ps, t :: ts, b, b', hlen, h => by
    intro x
    rw [matchAll] at h
    split at h
    · rename_i hfirst
      rw [contains_matchAll (Nat.succ.inj hlen) h x, contains_matchTerm hfirst x]
      simp [or_assoc]
    · rename_i hfail
      exact absurd h (hfail b')

end

theorem matched_of_matchAll {ps ts : List Term} {b b' : Substitution}
    (hlen : ps.length = ts.length) (h : matchAll ps ts b = (true, b')) : Matched b ps ts b' where
  bound := contains_matchAll hlen h
  kept := (matchAll_sound hlen h).1
  sends := by
    have happ := matches_app (matchAll_sound hlen h).2 default b' (.refl b')
    rw [subst_app] at happ
    exact (app.inj happ).2

theorem matchAll_singleton (p t : Term) (b : Substitution) :
    matchAll [p] [t] b = p.matchTerm t b := by
  rw [matchAll]
  rcases p.matchTerm t b with ⟨_ | _, b'⟩ <;> rfl

theorem matchAll?_eq_some_iff {ps ts : List Term} {b b' : Substitution} :
    matchAll? ps ts b = some b' ↔ matchAll ps ts b = (true, b') := by
  unfold matchAll?
  split <;> simp_all

/-- What matching lists of one length finds out. -/
theorem matchAll?_isSome_iff {ps ts : List Term} {b : Substitution}
    (hlen : ps.length = ts.length) :
    (∃ b', matchAll? ps ts b = some b') ↔ ∃ θ, b.Agrees θ ∧ ps.map (subst θ) = ts := by
  simp only [matchAll?_eq_some_iff]
  constructor
  · rintro ⟨b', h⟩
    have hmatched := matched_of_matchAll hlen h
    exact ⟨b'.apply, hmatched.agrees, hmatched.sends⟩
  · rintro ⟨θ, hb, rfl⟩
    obtain ⟨b', h, -⟩ := exists_matchAll ps hb
    exact ⟨b', h⟩

end Term

theorem Atom.matchAtom_rel (r q : Symbol) (ps ts : List Term) (b : Substitution) :
    (rel r ps).matchAtom (.rel q ts) b =
      if r = q ∧ ps.length = ts.length then Term.matchAll? ps ts b else none := rfl

/-- A term matches exactly if a map that agrees with the bindings turns the pattern into
it, and relations match exactly if they have one name and one such map does so for all
arguments. A match binds the variables of the pattern besides those bound before, keeps
their bindings, and turns the pattern into the target when the bindings are applied once. -/
theorem matching_exact (p t : Term) (b : Substitution) :
    ((p.matchTerm t b).1 = true ↔ ∃ θ, b.Agrees θ ∧ p.subst θ = t) ∧
    ((p.matchTerm t b).1 = true → Matched b [p] [t] (p.matchTerm t b).2) ∧
    ∀ (r q : Symbol) (ps ts : List Term),
      ((∃ b', (Atom.rel r ps).matchAtom (.rel q ts) b = some b') ↔
        r = q ∧ ∃ θ, b.Agrees θ ∧ ps.map (Term.subst θ) = ts) ∧
      ∀ b', (Atom.rel r ps).matchAtom (.rel q ts) b = some b' → Matched b ps ts b' := by
  have hmatched (h : (p.matchTerm t b).1 = true) : Matched b [p] [t] (p.matchTerm t b).2 :=
    Term.matched_of_matchAll rfl ((Term.matchAll_singleton p t b).trans (Prod.ext h rfl))
  refine ⟨⟨fun h => ?_, ?_⟩, hmatched, fun r q ps ts => ?_⟩
  · exact ⟨_, (hmatched h).agrees, List.singleton_inj.mp (hmatched h).sends⟩
  · rintro ⟨θ, hb, rfl⟩
    obtain ⟨b', h, -⟩ := Term.exists_matchTerm p hb
    rw [h]
  · rw [Atom.matchAtom_rel]
    split
    · rename_i heq
      refine ⟨?_, fun b' h => Term.matched_of_matchAll heq.2 (Term.matchAll?_eq_some_iff.mp h)⟩
      rw [Term.matchAll?_isSome_iff heq.2]
      exact (and_iff_right heq.1).symm
    · rename_i hne
      refine ⟨⟨by simp, ?_⟩, by simp⟩
      rintro ⟨rfl, θ, -, rfl⟩
      exact absurd ⟨rfl, (List.length_map _).symm⟩ hne

/-- With `x` bound to `y`, the pattern `g(x, y)` matches `g(y, x)`: neither variable is
replaced a second time. -/
example : ((Term.app ⟨0⟩ [.var ⟨1⟩, .var ⟨2⟩]).matchTerm (.app ⟨0⟩ [.var ⟨2⟩, .var ⟨1⟩])
    (empty.insert ⟨1⟩ (.var ⟨2⟩))) =
    (true, (empty.insert ⟨1⟩ (.var ⟨2⟩)).insert ⟨2⟩ (.var ⟨1⟩)) := by
  decide

end Entailment
