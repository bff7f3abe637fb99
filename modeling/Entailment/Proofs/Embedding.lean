import Entailment.Proofs.Instances
import Entailment.Proofs.Matching

/-! Subsumption as embedding. A clause that subsumes another one has an instance inside
it, up to the order of the sides of equations. The converse holds only as far as a search
goes that never turns an equation it could match as it stands. -/
namespace Entailment

universe u

open Substitution

namespace Atom

variable {a b p : Atom} {θ η : Symbol → Term}

@[simp] theorem turned_false (a : Atom) : a.turned false = a := by
  cases a <;> rfl

theorem Alike.holds_iff {D : Type u} {I : Interpretation D} {v : Symbol → D} (h : a.Alike b) :
    a.Holds I v ↔ b.Holds I v := by
  obtain ⟨turn, rfl⟩ := h
  cases b with
  | rel r args => rfl
  | eq l r =>
    cases turn with
    | false => rfl
    | true => exact eq_comm

/-- Matching that takes the sides of equations in their order. -/
def matchStraight : Atom → Atom → Substitution → Option Substitution
  | .rel r ps, .rel q ts, b => if r = q ∧ ps.length = ts.length then Term.matchAll? ps ts b else none
  | .eq l r, .eq l' r', b => Term.matchAll? [l, r] [l', r'] b
  | _, _, _ => none

theorem matchAtom_eq (p a : Atom) (b : Substitution) :
    p.matchAtom a b = (p.matchStraight a b).or (p.matchStraight (a.turned true) b) := by
  cases p with
  | rel r ps =>
    cases a with
    | rel q ts => exact Option.or_self.symm
    | eq l' r' => rfl
  | eq l r => cases a <;> rfl

section Straight

variable {b b' : Substitution}

theorem exists_matchStraight (hb : b.Agrees θ) (p : Atom) :
    ∃ b', p.matchStraight (p.subst θ) b = some b' ∧ b'.Agrees θ := by
  cases p with
  | rel r ps =>
    obtain ⟨b', h, hb'⟩ := Term.exists_matchAll ps hb
    refine ⟨b', ?_, hb'⟩
    rw [subst, matchStraight, if_pos ⟨rfl, (List.length_map _).symm⟩]
    exact Term.matchAll?_eq_some_iff.mpr h
  | eq l r =>
    obtain ⟨b', h, hb'⟩ := Term.exists_matchAll [l, r] hb
    exact ⟨b', Term.matchAll?_eq_some_iff.mpr h, hb'⟩

theorem matched_of_matchStraight (h : p.matchStraight a b = some b') :
    Matched b p.terms a.terms b' ∧ ∀ θ, b'.Agrees θ → p.subst θ = a := by
  cases p with
  | rel r ps =>
    cases a with
    | eq l' r' => cases h
    | rel q ts =>
      rw [matchStraight] at h
      split at h
      · rename_i heq
        have hmatched := Term.matched_of_matchAll heq.2 (Term.matchAll?_eq_some_iff.mp h)
        refine ⟨hmatched, fun θ hθ => ?_⟩
        rw [subst, hmatched.map_subst hθ, heq.1]
      · cases h
  | eq l r =>
    cases a with
    | rel q ts => cases h
    | eq l' r' =>
      have hlen : [l, r].length = [l', r'].length := rfl
      have hmatched := Term.matched_of_matchAll hlen (Term.matchAll?_eq_some_iff.mp h)
      refine ⟨hmatched, fun θ hθ => ?_⟩
      have hsides := hmatched.map_subst hθ
      simp only [List.map_cons, List.map_nil, List.cons.injEq, and_true] at hsides
      rw [subst, hsides.1, hsides.2]

/-- A crosswise match is found only if no map that agrees with the bindings matches the
sides as they stand. -/
theorem exists_matchAtom (hb : b.Agrees θ)
    (h : p.subst θ = a ∨ p.subst θ = a.turned true ∧ ∀ η, b.Agrees η → p.subst η ≠ a) :
    ∃ b', p.matchAtom a b = some b' ∧ b'.Agrees θ := by
  rw [matchAtom_eq]
  obtain ⟨b', hmatch, hb'⟩ := exists_matchStraight hb p
  refine ⟨b', ?_, hb'⟩
  rcases h with rfl | ⟨hturned, hnone⟩
  · rw [hmatch, Option.some_or]
  · rw [← hturned, hmatch, Option.or_eq_some_iff]
    refine .inr ⟨Option.eq_none_iff_forall_ne_some.mpr fun b₁ h₁ => ?_, rfl⟩
    obtain ⟨hmatched, hstraight⟩ := matched_of_matchStraight h₁
    exact hnone _ hmatched.agrees (hstraight _ (Extends.refl b₁).agrees_apply)

theorem of_matchAtom (h : p.matchAtom a b = some b') :
    (∀ x, b'.contains x = true ↔ b.contains x = true ∨ ∃ t ∈ p.terms, t.hasVar x = true) ∧
    b'.Extends b ∧
    ∀ θ, b'.Agrees θ → p.subst θ = a ∨
      p.subst θ = a.turned true ∧ ∀ η, b.Agrees η → p.subst η ≠ a := by
  rw [matchAtom_eq, Option.or_eq_some_iff] at h
  rcases h with h | ⟨hnone, h⟩
  · obtain ⟨hmatched, hstraight⟩ := matched_of_matchStraight h
    exact ⟨hmatched.bound, hmatched.kept, fun θ hθ => .inl (hstraight θ hθ)⟩
  · obtain ⟨hmatched, hstraight⟩ := matched_of_matchStraight h
    refine ⟨hmatched.bound, hmatched.kept, fun θ hθ => .inr ⟨hstraight θ hθ, ?_⟩⟩
    rintro η hη rfl
    obtain ⟨b₁, h₁, -⟩ := exists_matchStraight hη p
    rw [hnone] at h₁
    cases h₁

end Straight

end Atom

namespace Literal

section Truth

variable {D : Type u} {I : Interpretation D} {v : Symbol → D}

theorem Alike.holds_iff {l k : Literal} (h : l.Alike k) : l.Holds I v ↔ k.Holds I v := by
  unfold Holds
  rw [h.1, h.2.holds_iff]

theorem holds_subst (θ : Symbol → Term) (l : Literal) :
    (l.subst θ).Holds I v ↔ l.Holds I fun x => (θ x).eval I v := by
  simp only [Holds, subst, Atom.holds_subst]

end Truth

/-- How the map sends a literal to another one when its values for the variables of the
earlier literals are given: the sides of an equation as they stand, or exchanged if no
map with these values sends them as they stand. -/
def Fits (θ : Symbol → Term) (earlier : List Literal) (l k : Literal) : Prop :=
  (l.atom.subst θ = k.atom ∨
    l.atom.subst θ = k.atom.turned true ∧
      ∀ η : Symbol → Term, (∀ x, (∃ m ∈ earlier, m.HasVar x) → η x = θ x) →
        l.atom.subst η ≠ k.atom) ∧
    l.negated = k.negated

/-- The values for the variables of one literal can be chosen so that it fits. -/
theorem exists_fits (θ : Symbol → Term) (earlier : List Literal) (l : Literal) :
    ∃ η : Symbol → Term, (∀ x, (∃ m ∈ earlier, m.HasVar x) → η x = θ x) ∧
      l.Fits η earlier (l.under θ) := by
  by_cases h : ∃ η : Symbol → Term, (∀ x, (∃ m ∈ earlier, m.HasVar x) → η x = θ x) ∧
      l.atom.subst η = (l.under θ).atom
  · obtain ⟨η, hη, hstraight⟩ := h
    exact ⟨η, hη, .inl hstraight, rfl⟩
  · refine ⟨θ, fun _ _ => rfl, ?_, rfl⟩
    obtain ⟨turn, hturn⟩ := Atom.exists_mapTerms_eq_turned θ l.atom
    have hback : l.atom.subst θ = (l.under θ).atom.turned turn := by
      rw [under, mapTerms, hturn, Atom.turned_turned]
    cases turn with
    | false => exact .inl (hback.trans (Atom.turned_false _))
    | true => exact .inr ⟨hback, fun η hη heq => h ⟨η, hη, heq⟩⟩

theorem fits_of_rel {θ : Symbol → Term} {l : Literal} (h : l.atom.isEq = false)
    (earlier : List Literal) : l.Fits θ earlier (l.under θ) := by
  obtain ⟨a, negated⟩ := l
  cases a with
  | rel r args => exact ⟨.inl rfl, rfl⟩
  | eq l r => cases h

/-- Equations come last. -/
theorem isEq_of_compare_lt {l k : Literal} (h : compare l k = .lt) (hl : l.atom.isEq = true) :
    k.atom.isEq = true := by
  obtain ⟨a, m⟩ := l
  obtain ⟨b, n⟩ := k
  cases a with
  | rel r args => cases hl
  | eq l r =>
    cases b with
    | rel q args => cases h
    | eq l' r' => rfl

theorem Fits.alike {θ : Symbol → Term} {earlier : List Literal} {l k : Literal}
    (h : l.Fits θ earlier k) : (l.subst θ).Alike k := by
  refine ⟨h.2, ?_⟩
  rcases h.1 with hstraight | ⟨hturned, -⟩
  · exact ⟨false, by rw [Atom.turned_false, ← hstraight, subst]⟩
  · exact ⟨true, hturned⟩

end Literal

/-- The elements of a list, each with those before it. -/
theorem forall_split_cons {α : Type} {P : List α → α → Prop} {a : α} {as : List α} :
    (∀ earlier b later, a :: as = earlier ++ b :: later → P earlier b) ↔
      P [] a ∧ ∀ earlier b later, as = earlier ++ b :: later → P (a :: earlier) b := by
  constructor
  · refine fun h => ⟨h [] a as rfl, fun earlier b later heq => ?_⟩
    exact h (a :: earlier) b later (congrArg (a :: ·) heq)
  · rintro ⟨hhead, htail⟩ earlier b later heq
    cases earlier with
    | nil => exact (List.cons.inj heq).1 ▸ hhead
    | cons a' earlier =>
      obtain ⟨rfl, hrest⟩ := List.cons.inj heq
      exact htail earlier b later hrest

theorem forall_split_concat {α : Type} {P : List α → α → Prop} {a : α} {as : List α}
    (h : ∀ earlier b later, as = earlier ++ b :: later → P earlier b) (ha : P as a) :
    ∀ earlier b later, as ++ [a] = earlier ++ b :: later → P earlier b := by
  intro earlier b later heq
  rcases List.eq_nil_or_concat later with rfl | ⟨later, a', rfl⟩
  · obtain ⟨rfl, hb⟩ := List.append_inj' heq rfl
    exact (List.singleton_inj.mp hb) ▸ ha
  · rw [List.concat_eq_append, ← List.cons_append, ← List.append_assoc] at heq
    exact h earlier b later (List.append_inj' heq rfl).1

namespace Clause

/-- The search for an embedding goes through the literals in order. What it has bound so
far are the variables of the literals it is done with. -/
theorem embeds_iff {target ls done : List Literal} {b : Substitution}
    (hdone : ∀ x, b.contains x = true ↔ ∃ m ∈ done, m.HasVar x) :
    embeds target ls b = true ↔ ∃ θ, b.Agrees θ ∧
      ∀ earlier l later, ls = earlier ++ l :: later →
        ∃ k ∈ target, l.Fits θ (done ++ earlier) k := by
  induction ls generalizing done b with
  | nil =>
    refine iff_of_true rfl ⟨b.apply, (Extends.refl b).agrees_apply, ?_⟩
    intro earlier l later heq
    simp at heq
  | cons l ls ih =>
    -- To agree with the bindings is to agree on the variables of the literals that are done.
    have hgiven {θ η : Symbol → Term} (hθ : b.Agrees θ) :
        b.Agrees η ↔ ∀ x, (∃ m ∈ done, m.HasVar x) → η x = θ x := by
      simp only [hθ.agrees_iff, hdone]
    have hnext {b₁ : Substitution} {k : Literal} (h : l.atom.matchAtom k.atom b = some b₁)
        (x : Symbol) : b₁.contains x = true ↔ ∃ m ∈ done ++ [l], m.HasVar x := by
      rw [(Atom.of_matchAtom h).1, hdone]
      simp [or_and_right, exists_or, Literal.HasVar, Literal.terms]
    have hih {b₁ : Substitution} {k : Literal} (h : l.atom.matchAtom k.atom b = some b₁) :=
      ih (hnext h)
    simp only [List.append_assoc, List.cons_append, List.nil_append] at hih
    simp only [forall_split_cons, List.append_nil]
    rw [embeds, List.any_eq_true]
    constructor
    · rintro ⟨k, hk, h⟩
      rw [Bool.and_eq_true, beq_iff_eq] at h
      obtain ⟨hsign, h⟩ := h
      split at h
      · rename_i b₁ hmatch
        obtain ⟨-, hkept, hstraight⟩ := Atom.of_matchAtom hmatch
        obtain ⟨θ, hθ, hrest⟩ := (hih hmatch).mp h
        have hb := hθ.of_extends hkept
        refine ⟨θ, hb, ⟨k, hk, ?_, hsign.symm⟩, hrest⟩
        simpa only [← hgiven hb] using hstraight θ hθ
      · cases h
    · rintro ⟨θ, hθ, ⟨k, hk, hfits, hsign⟩, hrest⟩
      simp only [← hgiven hθ] at hfits
      obtain ⟨b₁, hmatch, hb₁⟩ := Atom.exists_matchAtom hθ hfits
      refine ⟨k, hk, ?_⟩
      rw [hsign, beq_self_eq_true, Bool.true_and, hmatch]
      exact (hih hmatch).mpr ⟨θ, hb₁, hrest⟩

variable {c d : Clause}

theorem subsumes_iff_fits : c.subsumes d = true ↔ c.size ≤ d.size ∧ ∃ θ : Symbol → Term,
    ∀ earlier l later, c.literals = earlier ++ l :: later →
      ∃ k ∈ d.literals, l.Fits θ earlier k := by
  have hempty (x : Symbol) :
      Substitution.empty.contains x = true ↔ ∃ m ∈ ([] : List Literal), m.HasVar x :=
    iff_of_false Bool.false_ne_true (by simp)
  rw [subsumes, Bool.and_eq_true, decide_eq_true_iff, embeds_iff hempty]
  simp only [agrees_empty, true_and, List.nil_append]

/-- With no more than one equation, which comes last, nothing depends on how it is matched. -/
theorem subsumes_of_covers (hc : c.Normal) (hone : c.literals.countP (·.atom.isEq) ≤ 1)
    (h : c.Covers d) : c.subsumes d = true := by
  obtain ⟨hsize, θ, hθ⟩ := h
  refine subsumes_iff_fits.mpr ⟨hsize, ?_⟩
  rcases List.eq_nil_or_concat c.literals with hnil | ⟨ls, e, hconcat⟩
  · exact ⟨θ, by simp [hnil]⟩
  · rw [List.concat_eq_append] at hconcat
    have hincreasing := hc.increasing
    rw [hconcat] at hθ hone hincreasing ⊢
    have hrel (l : Literal) (hl : l ∈ ls) : l.atom.isEq = false := by
      by_contra heq
      rw [Bool.not_eq_false] at heq
      have hlast := Literal.isEq_of_compare_lt
        ((List.pairwise_append.mp hincreasing).2.2 l hl e List.mem_cons_self) heq
      have hpos : 0 < ls.countP (·.atom.isEq) := List.countP_pos_iff.mpr ⟨l, hl, heq⟩
      rw [List.countP_append, List.countP_singleton, if_pos hlast] at hone
      omega
    obtain ⟨η, hη, hfits⟩ := e.exists_fits θ ls
    refine ⟨η, forall_split_concat (fun earlier l later heq => ?_)
      ⟨_, hθ e (by simp), hfits⟩⟩
    have hl : l ∈ ls := by simp [heq]
    refine ⟨_, ?_, Literal.fits_of_rel (hrel l hl) earlier⟩
    rw [Literal.under_congr fun x hx => hη x ⟨l, hl, hx⟩]
    exact hθ l (List.mem_append_left _ hl)

/-- A clause that subsumes another one is no larger, and some instance of it is part of
the other one, which therefore holds wherever the first does. -/
theorem subsumes_sound (h : c.subsumes d = true) :
    c.size ≤ d.size ∧
    (∃ θ : Symbol → Term, ∀ l ∈ c.literals, ∃ k ∈ d.literals, (l.subst θ).Alike k) ∧
    ∀ {D : Type u} (I : Interpretation D), c.TrueIn I → d.TrueIn I := by
  obtain ⟨hsize, θ, hfits⟩ := subsumes_iff_fits.mp h
  have halike (l : Literal) (hl : l ∈ c.literals) : ∃ k ∈ d.literals, (l.subst θ).Alike k := by
    obtain ⟨earlier, later, heq⟩ := List.append_of_mem hl
    obtain ⟨k, hk, hfits⟩ := hfits earlier l later heq
    exact ⟨k, hk, hfits.alike⟩
  refine ⟨hsize, ⟨θ, halike⟩, fun I hc v => ?_⟩
  obtain ⟨l, hl, hholds⟩ := hc fun x => (θ x).eval I v
  obtain ⟨k, hk, halike⟩ := halike l hl
  exact ⟨k, hk, halike.holds_iff.mp ((Literal.holds_subst θ l).mpr hholds)⟩

/-- `{P(x, y), x = y}`. -/
def reflected : Clause :=
  ⟨[⟨.rel ⟨0⟩ [.var ⟨2⟩, .var ⟨3⟩], false⟩, ⟨.eq (.var ⟨2⟩) (.var ⟨3⟩), false⟩]⟩

/-- `{P(y, x), ¬Q, x = y}`, which has the same variables. -/
def reflection : Clause :=
  ⟨[⟨.rel ⟨0⟩ [.var ⟨3⟩, .var ⟨2⟩], false⟩, ⟨.rel ⟨1⟩ [], true⟩,
    ⟨.eq (.var ⟨2⟩) (.var ⟨3⟩), false⟩]⟩

theorem subsumes_sound_reflected :
    reflected.subsumes reflection = true ∧ reflected.size ≤ reflection.size ∧
    (∃ θ : Symbol → Term, ∀ l ∈ reflected.literals, ∃ k ∈ reflection.literals,
      (l.subst θ).Alike k) ∧
    ∀ {D : Type} (I : Interpretation D), reflected.TrueIn I → reflection.TrueIn I := by
  have h : reflected.subsumes reflection = true := by decide
  exact ⟨h, subsumes_sound h⟩

/-- Subsumption holds exactly if some map sends every literal of the smaller clause into
the larger one, turning an equation only if the values for earlier literals leave no other
way. Every embedding is found if there is no more than one equation to embed. -/
theorem subsumes_complete (c d : Clause) :
    (c.subsumes d = true ↔ c.size ≤ d.size ∧ ∃ θ : Symbol → Term,
      ∀ earlier l later, c.literals = earlier ++ l :: later →
        ∃ k ∈ d.literals, l.Fits θ earlier k) ∧
    (c.Normal → d.Normal → c.literals.countP (·.atom.isEq) ≤ 1 →
      (c.subsumes d = true ↔ c.Covers d)) :=
  ⟨subsumes_iff_fits, fun hc hd hone => ⟨covers_of_subsumes hd, subsumes_of_covers hc hone⟩⟩

/-- `{P(x), x = y}`. -/
def guarded : Clause :=
  ⟨[⟨.rel ⟨0⟩ [.var ⟨1⟩], false⟩, ⟨.eq (.var ⟨1⟩) (.var ⟨2⟩), false⟩]⟩

/-- `{P(b), a = b}`, in which the equation has to be turned. -/
def guardedTarget : Clause :=
  ⟨[⟨.rel ⟨0⟩ [.const ⟨4⟩], false⟩, ⟨.eq (.const ⟨3⟩) (.const ⟨4⟩), false⟩]⟩

theorem subsumes_complete_guarded :
    guarded.Normal ∧ guardedTarget.Normal ∧ guarded.literals.countP (·.atom.isEq) ≤ 1 ∧
      guarded.Covers guardedTarget ∧ guarded.subsumes guardedTarget = true := by
  have hc : guarded.Normal := by decide
  have hd : guardedTarget.Normal := by decide
  have hone : guarded.literals.countP (·.atom.isEq) ≤ 1 := by decide
  have hcovers : guarded.Covers guardedTarget :=
    ⟨by decide, fun x => if x = ⟨1⟩ then .const ⟨4⟩ else .const ⟨3⟩, by decide⟩
  exact ⟨hc, hd, hone, hcovers, ((subsumes_complete _ _).2 hc hd hone).mpr hcovers⟩

/-- `{x = y, x ≠ z}`. -/
def forked : Clause :=
  ⟨[⟨.eq (.var ⟨0⟩) (.var ⟨1⟩), false⟩, ⟨.eq (.var ⟨0⟩) (.var ⟨2⟩), true⟩]⟩

/-- `{a = b, b ≠ c}`. -/
def forkedTarget : Clause :=
  ⟨[⟨.eq (.const ⟨3⟩) (.const ⟨4⟩), false⟩, ⟨.eq (.const ⟨4⟩) (.const ⟨5⟩), true⟩]⟩

/-- Of two equations the first is matched as it stands, with `a` for `x`, and this is not
taken back when the second one would need `b` for `x`. -/
theorem not_subsumes_forked :
    forked.Normal ∧ forkedTarget.Normal ∧ forked.Covers forkedTarget ∧
      forked.subsumes forkedTarget = false := by
  refine ⟨by decide, by decide, ⟨by decide, ?_⟩, by decide⟩
  refine ⟨fun x => if x = ⟨0⟩ then .const ⟨4⟩ else if x = ⟨1⟩ then .const ⟨3⟩ else .const ⟨5⟩, ?_⟩
  decide

end Clause

end Entailment
