import Entailment.Proofs.Clause
import Entailment.Proofs.Substitution

/-! Subsumption. Matching finds a substitution that turns the pattern into the
target, so a clause that subsumes another one has an instance inside it. -/
namespace Entailment

universe u

namespace Substitution

/-- Every binding of the first substitution is one of the second. -/
def Extends (b' b : Substitution) : Prop := ∀ x t, b.get? x = some t → b'.get? x = some t

theorem Extends.refl (b : Substitution) : b.Extends b := fun _ _ h => h

theorem Extends.trans {b b' b'' : Substitution} (h' : b''.Extends b') (h : b'.Extends b) :
    b''.Extends b :=
  fun x t hx => h' x t (h x t hx)

theorem extends_insert {b : Substitution} {x : Symbol} (h : b.get? x = none) (t : Term) :
    (b.insert x t).Extends b := by
  intro y u hy
  rw [get?_insert, if_neg]
  · exact hy
  · rintro rfl
    rw [h] at hy
    cases hy

/-- However the bindings are extended, they turn the pattern into the target. -/
def Matches (b : Substitution) (p t : Term) : Prop :=
  ∀ b', Extends b' b → p.subst b'.apply = t

theorem Matches.mono {b b' : Substitution} {p t : Term} (h : b.Matches p t) (hb : b'.Extends b) :
    b'.Matches p t :=
  fun b'' h'' => h b'' (h''.trans hb)

theorem matches_var {b : Substitution} {x : Symbol} {t : Term} (h : b.get? x = some t) :
    b.Matches (.var x) t :=
  fun _ hb => apply_of_get? (hb x t h)

theorem matches_app {b : Substitution} {ps ts : List Term} (h : List.Forall₂ b.Matches ps ts)
    (f : Symbol) : b.Matches (.app f ps) (.app f ts) := by
  intro b' hb
  rw [Term.subst_app]
  congr 1
  induction h with
  | nil => rfl
  | cons hp _ ih => rw [List.map_cons, hp b' hb, ih]

end Substitution

open Substitution

mutual

theorem Term.matchTerm_sound : ∀ {p t : Term} {b b' : Substitution},
    p.matchTerm t b = (true, b') → b'.Extends b ∧ b'.Matches p t
  | .var x, t, b, b', h => by
    rw [Term.matchTerm] at h
    split at h
    · rename_i u hu
      simp only [Prod.mk.injEq, beq_iff_eq] at h
      obtain ⟨rfl, rfl⟩ := h
      exact ⟨.refl b, matches_var hu⟩
    · rename_i hnone
      cases h
      exact ⟨extends_insert hnone t, matches_var (by rw [get?_insert, if_pos rfl])⟩
  | .const c, .const d, b, b', h => by
    simp only [Term.matchTerm, Prod.mk.injEq, beq_iff_eq] at h
    obtain ⟨rfl, rfl⟩ := h
    exact ⟨.refl b, fun _ _ => rfl⟩
  | .app f ps, .app g ts, b, b', h => by
    rw [Term.matchTerm] at h
    split at h
    · rename_i heq
      obtain ⟨rfl, hlen⟩ := heq
      have hall := Term.matchAll_sound hlen h
      exact ⟨hall.1, matches_app hall.2 f⟩
    · cases h
  | .const _, .var _, _, _, h => by cases h
  | .const _, .app .., _, _, h => by cases h
  | .app .., .var _, _, _, h => by cases h
  | .app .., .const _, _, _, h => by cases h

theorem Term.matchAll_sound : ∀ {ps ts : List Term} {b b' : Substitution},
    ps.length = ts.length → Term.matchAll ps ts b = (true, b') →
    b'.Extends b ∧ List.Forall₂ b'.Matches ps ts
  | [], [], b, b', _, h => by
    cases h
    exact ⟨.refl b, .nil⟩
  | [], _ :: _, _, _, hlen, _ => by cases hlen
  | _ :: _, [], _, _, hlen, _ => by cases hlen
  | p :: ps, t :: ts, b, b', hlen, h => by
    rw [Term.matchAll] at h
    split at h
    · rename_i b₁ hfirst
      have hhead := Term.matchTerm_sound hfirst
      have htail := Term.matchAll_sound (Nat.succ.inj hlen) h
      exact ⟨htail.1.trans hhead.1, .cons (hhead.2.mono htail.1) htail.2⟩
    · rename_i hfail
      exact absurd h (hfail b')

end

namespace Atom

theorem matchAll?_sound {ps ts : List Term} {b b' : Substitution} (hlen : ps.length = ts.length)
    (h : Term.matchAll? ps ts b = some b') :
    b'.Extends b ∧ ∀ b'', Extends b'' b' → ps.map (Term.subst b''.apply) = ts := by
  unfold Term.matchAll? at h
  split at h
  · rename_i hmatch
    cases h
    have hall := Term.matchAll_sound hlen hmatch
    refine ⟨hall.1, fun b'' hb => ?_⟩
    simpa using matches_app hall.2 default b'' hb
  · cases h

theorem matchSides_sound {l r l' r' : Term} {b b' : Substitution}
    (h : Term.matchAll? [l, r] [l', r'] b = some b') :
    b'.Extends b ∧ ∀ b'', Extends b'' b' →
      (eq l r).mapTerms (Term.subst b''.apply) = equation l' r' := by
  have hlen : [l, r].length = [l', r'].length := rfl
  have hall := matchAll?_sound hlen h
  refine ⟨hall.1, fun b'' hb => ?_⟩
  have hsides := hall.2 b'' hb
  simp only [List.map_cons, List.map_nil, List.cons.injEq, and_true] at hsides
  rw [mapTerms, hsides.1, hsides.2]

/-- The sides of an equation may be exchanged, which putting them in order undoes. -/
theorem matchAtom_sound {p a : Atom} {b b' : Substitution} (h : p.matchAtom a b = some b') :
    b'.Extends b ∧
      ∀ b'', Extends b'' b' → p.mapTerms (Term.subst b''.apply) = a.mapTerms id := by
  cases p with
  | rel r ps =>
    cases a with
    | eq l' r' => cases h
    | rel q ts =>
      rw [matchAtom] at h
      split at h
      · rename_i heq
        obtain ⟨rfl, hlen⟩ := heq
        have hall := matchAll?_sound hlen h
        refine ⟨hall.1, fun b'' hb => ?_⟩
        simp [mapTerms, hall.2 b'' hb]
      · cases h
  | eq l r =>
    cases a with
    | rel q ts => cases h
    | eq l' r' =>
      rw [matchAtom, Option.or_eq_some_iff] at h
      rcases h with h | ⟨-, h⟩
      · exact matchSides_sound h
      · have hcrossed := matchSides_sound h
        refine ⟨hcrossed.1, fun b'' hb => ?_⟩
        rw [hcrossed.2 b'' hb, equation_comm]
        rfl

end Atom

namespace Clause

theorem embeds_sound {target ls : List Literal} {b : Substitution} (h : embeds target ls b = true) :
    ∃ b', Extends b' b ∧
      ∀ l ∈ ls, ∃ k ∈ target, l.under b'.apply = k.mapTerms id := by
  induction ls generalizing b with
  | nil => exact ⟨b, .refl b, by simp⟩
  | cons l ls ih =>
    rw [embeds, List.any_eq_true] at h
    obtain ⟨k, hk, h⟩ := h
    rw [Bool.and_eq_true, beq_iff_eq] at h
    obtain ⟨hsign, h⟩ := h
    split at h
    · rename_i b₁ hmatch
      have hhead := Atom.matchAtom_sound hmatch
      obtain ⟨b', hb', htail⟩ := ih h
      refine ⟨b', hb'.trans hhead.1, fun m hm => ?_⟩
      rcases List.mem_cons.mp hm with rfl | hm
      · refine ⟨k, hk, ?_⟩
        simp only [Literal.under, Literal.mapTerms, hhead.2 b' hb', hsign]
      · exact htail m hm
    · cases h

/-- No larger clause, with an instance that is part of the other one. -/
def Covers (e c : Clause) : Prop :=
  e.size ≤ c.size ∧ ∃ θ : Symbol → Term, ∀ l ∈ e.literals, l.under θ ∈ c.literals

theorem covers_of_subsumes {e c : Clause} (hc : c.Normal) (h : e.subsumes c = true) :
    e.Covers c := by
  rw [subsumes, Bool.and_eq_true, decide_eq_true_iff] at h
  obtain ⟨b, -, hb⟩ := embeds_sound h.2
  refine ⟨h.1, b.apply, fun l hl => ?_⟩
  obtain ⟨k, hk, heq⟩ := hb l hl
  have hordered : k.mapTerms id = k := by
    rw [Literal.mapTerms, Atom.mapTerms_id (hc.ordered k hk)]
  rwa [heq, hordered]

/-- Instances that do not lose literals are covered by what covers the clause. -/
theorem Covers.under {e c : Clause} (h : e.Covers c) {θ : Symbol → Term}
    (hsize : c.size ≤ (c.under θ).size) : e.Covers (c.under θ) := by
  obtain ⟨hle, η, hη⟩ := h
  refine ⟨hle.trans hsize, fun x => (η x).subst θ, fun l hl => ?_⟩
  rw [← Literal.under_under]
  exact under_mem_under (hη l hl)

theorem Covers.trueIn {D : Type u} {I : Interpretation D} {e c : Clause} (h : e.Covers c)
    (he : e.TrueIn I) : c.TrueIn I := by
  obtain ⟨-, θ, hθ⟩ := h
  intro v
  obtain ⟨l, hl, hholds⟩ := he.mapTerms_subst θ v
  obtain ⟨k, hk, rfl⟩ := mem_under.mp hl
  exact ⟨_, hθ k hk, hholds⟩

end Clause

end Entailment
