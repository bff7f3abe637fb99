import Entailment.Proofs.Premises

/-! Inferences with copies. Which copy of a clause takes part in an inference does
not matter: what is inferred with one copy and what is inferred with another are
instances of each other. -/
namespace Entailment

open Substitution

variable {θ : Symbol → Term} {ρ : Symbol → Symbol}

namespace Term

theorem positionsFrom_map {f : Term → Term} {ts : List Term}
    (h : ∀ t ∈ ts, (f t).positions = t.positions) (i : Nat) :
    positionsFrom i (ts.map f) = positionsFrom i ts := by
  induction ts generalizing i with
  | nil => rfl
  | cons t ts ih =>
    rw [List.map_cons, positionsFrom, positionsFrom, h t List.mem_cons_self,
      ih fun u hu => h u (List.mem_cons_of_mem t hu)]

theorem positions_rename (ρ : Symbol → Symbol) (t : Term) :
    (t.rename ρ).positions = t.positions := by
  induction t using rec_args with
  | var x | const c => rfl
  | app f args ih =>
    rw [rename, subst_app, positions, positions]
    congr 1
    exact positionsFrom_map ih 0

theorem at?_rename (ρ : Symbol → Symbol) (t : Term) (path : List Nat) :
    (t.rename ρ).at? path = (t.at? path).map (rename ρ) := by
  induction path generalizing t with
  | nil => rw [at?, at?, Option.map_some]
  | cons i path ih =>
    cases t with
    | var x | const c => rfl
    | app f args =>
      rw [rename, subst_app, at?, at?, List.getElem?_map]
      cases args[i]? with
      | none => rfl
      | some t => exact ih t

/-- Replacement commutes with substitution at a place that is there. -/
theorem subst_replaceAt {t w : Term} {path : List Nat} (h : t.at? path = some w) (u : Term) :
    (t.replaceAt path u).subst θ = (t.subst θ).replaceAt path (u.subst θ) := by
  induction path generalizing t with
  | nil => rw [replaceAt, replaceAt]
  | cons i path ih =>
    cases t with
    | var x | const c => cases h
    | app f args =>
      rw [at?, Option.bind_eq_some_iff] at h
      obtain ⟨t, ht, hat⟩ := h
      rw [replaceAt, subst_app, subst_app, replaceAt]
      refine congrArg (app f) (map_modify fun t' ht' => ?_)
      rw [ht] at ht'
      cases ht'
      exact ih hat

end Term

namespace Atom

variable {a : Atom} {w : Term} {fill : (Symbol → Term) → Term → Atom}

theorem terms_subst (θ : Symbol → Term) (a : Atom) :
    (a.subst θ).terms = a.terms.map (Term.subst θ) := by
  cases a <;> rfl

theorem subst_subst (θ η : Symbol → Term) (a : Atom) :
    (a.subst θ).subst η = a.subst fun x => (θ x).subst η := by
  cases a with
  | rel r args => simp [subst, Term.subst_subst]
  | eq l r => simp [subst, Term.subst_subst]

theorem mapTerms_replaceAt {path : List Nat} (h : a.at? path = some w) (u : Term) :
    (a.replaceAt path u).mapTerms (Term.subst θ) = (a.subst θ).replaceAt path (u.subst θ) := by
  cases path with
  | nil => cases h
  | cons i path =>
    rw [at?, Option.bind_eq_some_iff] at h
    obtain ⟨t, ht, hat⟩ := h
    cases a with
    | rel r args =>
      refine congrArg (rel r) (Term.map_modify fun t' ht' => ?_)
      rw [terms] at ht
      rw [ht] at ht'
      cases ht'
      exact Term.subst_replaceAt hat u
    | eq l r =>
      rw [replaceAt, subst, replaceAt, mapTerms_equation]
      rcases i with _ | _ | i
      · obtain rfl : l = t := Option.some.inj ht
        simp [Term.subst_replaceAt hat]
      · obtain rfl : r = t := Option.some.inj ht
        simp [Term.subst_replaceAt hat]
      · cases ht

/-- The atom has the subterm `w` at a place, and `fill` puts other terms there, in
any instance of the atom. -/
def Place (a : Atom) (w : Term) (fill : (Symbol → Term) → Term → Atom) : Prop :=
  ∃ path ∈ a.positions, a.at? path = some w ∧ ∀ θ u, (a.subst θ).replaceAt path u = fill θ u

theorem hasVar_turned {turn : Bool} {x : Symbol} (h : (a.turned turn).HasVar x) : a.HasVar x := by
  obtain ⟨t, ht, hx⟩ := h
  refine ⟨t, ?_, hx⟩
  cases a with
  | rel r args => exact ht
  | eq l r =>
    cases turn with
    | false => exact ht
    | true => simpa [Atom.turned, terms, or_comm] using ht

theorem Place.hasVar (h : a.Place w fill) {x : Symbol} (hx : w.hasVar x = true) : a.HasVar x := by
  obtain ⟨path, -, hat, -⟩ := h
  exact hasVar_of_at? hat hx

theorem Place.fill_congr (h : a.Place w fill) {η : Symbol → Term}
    (hη : ∀ x, a.HasVar x → θ x = η x) (u : Term) : fill θ u = fill η u := by
  obtain ⟨path, -, -, hfill⟩ := h
  rw [← hfill, ← hfill, subst_congr hη]

theorem Place.exists_filled (h : a.Place w fill) (u : Term) :
    ∃ b : Atom, ∀ θ, b.mapTerms (Term.subst θ) = fill θ (u.subst θ) := by
  obtain ⟨path, -, hat, hfill⟩ := h
  exact ⟨a.replaceAt path u, fun θ => (mapTerms_replaceAt hat u).trans (hfill θ _)⟩

theorem Place.turned (h : a.Place w fill) (turn : Bool) : (a.turned turn).Place w fill := by
  cases a with
  | rel r args => exact h
  | eq l r =>
    cases turn with
    | false => exact h
    | true =>
      obtain ⟨path, hpath, hat, hfill⟩ := h
      simp only [positions, terms, Term.positionsFrom, List.append_nil, List.mem_append,
        List.mem_map] at hpath
      -- The sides have changed places, and so have the paths into them.
      rcases hpath with ⟨p, hp, rfl⟩ | ⟨p, hp, rfl⟩
      · refine ⟨1 :: p, ?_, hat, fun θ u => ?_⟩
        · simp [Atom.turned, positions, terms, Term.positionsFrom, hp]
        · rw [← hfill]
          exact equation_comm _ _
      · refine ⟨0 :: p, ?_, hat, fun θ u => ?_⟩
        · simp [Atom.turned, positions, terms, Term.positionsFrom, hp]
        · rw [← hfill]
          exact equation_comm _ _

theorem positions_subst_var (ρ : Symbol → Symbol) (a : Atom) :
    (a.subst fun x => .var (ρ x)).positions = a.positions := by
  rw [positions, terms_subst]
  exact Term.positionsFrom_map (fun t _ => Term.positions_rename ρ t) 0

theorem at?_subst_var (ρ : Symbol → Symbol) (a : Atom) (path : List Nat) :
    (a.subst fun x => .var (ρ x)).at? path = (a.at? path).map (Term.rename ρ) := by
  cases path with
  | nil => rfl
  | cons i path =>
    rw [at?, at?, terms_subst, List.getElem?_map]
    cases a.terms[i]? with
    | none => rfl
    | some t => exact Term.at?_rename ρ t path

/-- The places of a renamed atom are those of the atom. -/
theorem place_rename : (a.mapTerms (Term.rename ρ)).Place w fill ↔
    ∃ w' fill', a.Place w' fill' ∧ w = w'.rename ρ ∧
      fill = fun θ u => fill' (fun x => θ (ρ x)) u := by
  obtain ⟨turn, hturn⟩ := exists_mapTerms_eq_turned (fun x => .var (ρ x)) a
  constructor
  · intro h
    rw [show a.mapTerms (Term.rename ρ) = _ from hturn] at h
    have h := h.turned turn
    rw [turned_turned] at h
    obtain ⟨path, hpath, hat, hfill⟩ := h
    rw [positions_subst_var] at hpath
    rw [at?_subst_var, Option.map_eq_some_iff] at hat
    obtain ⟨w', hat, rfl⟩ := hat
    refine ⟨w', fun θ u => (a.subst θ).replaceAt path u, ⟨path, hpath, hat, fun _ _ => rfl⟩, rfl, ?_⟩
    funext θ u
    rw [← hfill, subst_subst]
    rfl
  · rintro ⟨w', fill', ⟨path, hpath, hat, hfill⟩, rfl, rfl⟩
    rw [show a.mapTerms (Term.rename ρ) = _ from hturn]
    refine Place.turned ⟨path, ?_, ?_, fun θ u => ?_⟩ turn
    · rwa [positions_subst_var]
    · rw [at?_subst_var, hat, Option.map_some]
    · rw [← hfill, subst_subst]
      rfl

end Atom

namespace Clause

variable {σ : Symbols} {c d e : Clause} {l k : Literal} {π : Symbol → Symbol}

open Classical in
/-- The map with the values of `θ`, where the copy by `π` takes the place of the
copy by `ρ`. -/
noncomputable def carry (c : Clause) (ρ π : Symbol → Symbol) (θ : Symbol → Term) (y : Symbol) :
    Term :=
  if h : ∃ x ∈ c.vars, π x = y then θ (ρ h.choose) else θ y

theorem carry_of_mem_vars (hπ : c.Renews π) {x : Symbol} (hx : x ∈ c.vars) :
    c.carry ρ π θ x = θ x := by
  refine dif_neg ?_
  rintro ⟨z, hz, rfl⟩
  exact hπ.new z hz hx

theorem carry_renamed (hπ : c.Renews π) {x : Symbol} (hx : x ∈ c.vars) :
    c.carry ρ π θ (π x) = θ (ρ x) := by
  have h : ∃ z ∈ c.vars, π z = π x := ⟨x, hx, rfl⟩
  rw [carry, dif_pos h, hπ.keepsApart h.choose_spec.1 hx h.choose_spec.2]

theorem under_carry (hπ : c.Renews π) (hl : l ∈ c.literals) :
    l.under (c.carry ρ π θ) = l.under θ :=
  Literal.under_congr fun _ hx => carry_of_mem_vars hπ (mem_vars.mpr ⟨l, hl, hx⟩)

theorem under_carry_renamed (hπ : c.Renews π) (hl : l ∈ c.literals) :
    (l.mapTerms (Term.rename π)).under (c.carry ρ π θ) = (l.mapTerms (Term.rename ρ)).under θ := by
  refine ((l.under_under _ _).trans ?_).trans (l.under_under _ _).symm
  exact Literal.under_congr fun x hx => carry_renamed hπ (mem_vars.mpr ⟨l, hl, hx⟩)

theorem mapTerms_rename_inj (hc : c.Normal) (hρ : c.KeepsApart ρ) (hl : l ∈ c.literals)
    (hk : k ∈ c.literals) (h : l.mapTerms (Term.rename ρ) = k.mapTerms (Term.rename ρ)) : l = k := by
  let η : Symbol → Term := fun y => .var (Function.invFunOn ρ {x | x ∈ c.vars} y)
  have hback {m : Literal} (hm : m ∈ c.literals) : (m.mapTerms (Term.rename ρ)).under η = m := by
    refine (m.under_under _ _).trans (Eq.trans ?_ (Literal.under_var (hc.ordered m hm)))
    refine Literal.under_congr fun x hx => congrArg Term.var ?_
    exact hρ.leftInvOn_invFunOn (mem_vars.mpr ⟨m, hm, hx⟩)
  rw [← hback hl, h, hback hk]

/-- The literals of two premises that an inference on `l` and a copy of `k` keeps. -/
def besides (c : Clause) (l k : Literal) (ρ : Symbol → Symbol) : List Literal :=
  c.literals.erase l ++ (c.rename ρ).literals.erase (k.mapTerms (Term.rename ρ))

theorem mem_besides (hc : c.Normal) (hρ : c.KeepsApart ρ) (hk : k ∈ c.literals) {m : Literal} :
    m ∈ c.besides l k ρ ↔
      (m ≠ l ∧ m ∈ c.literals) ∨ ∃ n ∈ c.literals, n ≠ k ∧ n.mapTerms (Term.rename ρ) = m := by
  rw [besides, List.mem_append, hc.increasing.nodup.mem_erase_iff,
    (normal_rename ρ c).increasing.nodup.mem_erase_iff]
  refine or_congr_right ?_
  constructor
  · rintro ⟨hne, hm⟩
    obtain ⟨n, hn, rfl⟩ := mem_under.mp hm
    exact ⟨n, hn, fun heq => hne (heq ▸ rfl), rfl⟩
  · rintro ⟨n, hn, hne, rfl⟩
    exact ⟨fun heq => hne (mapTerms_rename_inj hc hρ hn hk heq), mem_under.mpr ⟨n, hn, rfl⟩⟩

theorem mem_map_besides (hc : c.Normal) (hρ : c.Renews ρ) (hπ : c.Renews π) (hk : k ∈ c.literals)
    {m : Literal} :
    m ∈ (c.besides l k π).map (·.under (c.carry ρ π θ)) ↔ m ∈ (c.besides l k ρ).map (·.under θ) := by
  simp only [List.mem_map, mem_besides hc hπ.keepsApart hk, mem_besides hc hρ.keepsApart hk]
  constructor
  · rintro ⟨n, ⟨hne, hn⟩ | ⟨n, hn, hne, rfl⟩, rfl⟩
    · exact ⟨n, .inl ⟨hne, hn⟩, (under_carry hπ hn).symm⟩
    · exact ⟨_, .inr ⟨n, hn, hne, rfl⟩, (under_carry_renamed hπ hn).symm⟩
  · rintro ⟨n, ⟨hne, hn⟩ | ⟨n, hn, hne, rfl⟩, rfl⟩
    · exact ⟨n, .inl ⟨hne, hn⟩, under_carry hπ hn⟩
    · exact ⟨_, .inr ⟨n, hn, hne, rfl⟩, under_carry_renamed hπ hn⟩

/-- Each of the clauses is an instance of the other one. -/
def Variants (c d : Clause) : Prop := ∃ θ η : Symbol → Term, c.under θ = d ∧ d.under η = c

theorem under_combine_carry {s s' : Substitution} (hc : c.Normal) (hρ : c.Renews ρ)
    (hπ : c.Renews π) (hk : k ∈ c.literals) (hθ : Respects (c.carry ρ π s.apply) s')
    (l : Literal) {last last' : List Literal}
    (hlast : last'.map (·.under (c.carry ρ π s.apply)) = last.map (·.under s.apply)) :
    (combine (c.besides l k π ++ last') s').under (c.carry ρ π s.apply) =
      combine (c.besides l k ρ ++ last) s := by
  rw [under_combine hθ]
  refine ofList_congr fun m => ?_
  rw [List.map_append, List.map_append, List.mem_append, List.mem_append, hlast]
  exact or_congr_left (mem_map_besides hc hρ hπ hk)

theorem mem_unifiers_rename {a b : Atom} {s : Substitution} :
    s ∈ a.unifiers (b.mapTerms (Term.rename ρ)) ↔
      ∃ turn, a.unify ((b.turned turn).subst fun x => .var (ρ x)) .empty = .ok s := by
  obtain ⟨i, hi⟩ := Atom.exists_mapTerms_eq_turned (fun x => .var (ρ x)) b
  have hturned (j : Bool) : (b.mapTerms (Term.rename ρ)).turned j =
      (b.turned (i ^^ j)).subst fun x => .var (ρ x) := by
    rw [Atom.turned_subst, show b.mapTerms (Term.rename ρ) = _ from hi, Atom.turned_xor]
  rw [Atom.mem_unifiers_iff]
  simp only [hturned]
  constructor
  · rintro ⟨j, h⟩
    exact ⟨_, h⟩
  · rintro ⟨j, h⟩
    exact ⟨i ^^ j, by rwa [← Bool.xor_assoc, Bool.xor_self, Bool.false_xor]⟩

/-- A solution for one copy is carried over to the other. -/
theorem subst_carry {a b : Atom} (hπ : c.Renews π) (ha : ∀ x, a.HasVar x → x ∈ c.vars)
    (hb : ∀ x, b.HasVar x → x ∈ c.vars)
    (h : a.subst θ = (b.subst fun x => .var (ρ x)).subst θ) :
    a.subst (c.carry ρ π θ) = (b.subst fun x => .var (π x)).subst (c.carry ρ π θ) := by
  rw [Atom.subst_subst] at h ⊢
  rw [Atom.subst_congr fun x hx => carry_of_mem_vars hπ (ha x hx), h]
  exact Atom.subst_congr fun x hx => (carry_renamed hπ (hb x hx)).symm

theorem exists_variant_resolvent (hc : c.Normal) (hρ : c.Renews ρ) (hπ : c.Renews π)
    (he : e ∈ c.resolvents σ (c.rename ρ)) :
    ∃ e' ∈ c.resolvents σ (c.rename π), e'.Variants e := by
  obtain ⟨l, hl, k', hk', hla, hka, hsign, s, hs, rfl⟩ :=
    (mem_resolvents hc.increasing (normal_rename ρ c).increasing).mp he
  obtain ⟨k, hk, rfl⟩ := mem_under.mp hk'
  obtain ⟨turn, hs⟩ := mem_unifiers_rename.mp hs
  have hlvars (x : Symbol) (hx : l.atom.HasVar x) : x ∈ c.vars := mem_vars.mpr ⟨l, hl, hx⟩
  have hkvars (x : Symbol) (hx : (k.atom.turned turn).HasVar x) : x ∈ c.vars :=
    mem_vars.mpr ⟨k, hk, Atom.hasVar_turned hx⟩
  have hexact := Atom.unify_exact settled_empty l.atom
    ((k.atom.turned turn).subst fun x => .var (ρ x))
  rw [hs] at hexact
  have hsolved := subst_carry hπ hlvars hkvars hexact.solution
  obtain ⟨s', hs', hθ⟩ := (Atom.unify_exact settled_empty _ _).exists_respects hsolved
  have hexact' := Atom.unify_exact settled_empty l.atom
    ((k.atom.turned turn).subst fun x => .var (π x))
  rw [hs'] at hexact'
  have hη := hexact.respects_iff.mpr (subst_carry hρ hlvars hkvars hexact'.solution)
  refine ⟨combine (c.besides l k π) s', ?_, c.carry ρ π s.apply, c.carry π ρ s'.apply, ?_, ?_⟩
  · refine (mem_resolvents hc.increasing (normal_rename π c).increasing).mpr ⟨l, hl,
      k.mapTerms (Term.rename π), mem_under.mpr ⟨k, hk, rfl⟩, hla, ?_, hsign, s',
      mem_unifiers_rename.mpr ⟨turn, hs'⟩, rfl⟩
    rw [Literal.isAnswer_under] at hka
    exact (Literal.isAnswer_under σ k _).trans hka
  · have hinstance := under_combine_carry hc hρ hπ hk hθ l (List.map_nil.trans List.map_nil.symm)
    rwa [List.append_nil, List.append_nil] at hinstance
  · have hinstance := under_combine_carry hc hπ hρ hk hη l (List.map_nil.trans List.map_nil.symm)
    rwa [List.append_nil, List.append_nil] at hinstance

/-- Replacement at every place whose subterm unifies with the side `t`. -/
theorem mem_replacements {t u : Term} {others : List Literal} :
    e ∈ replacements t u k others ↔ ∃ w fill s a, k.atom.Place w fill ∧
      (∀ θ, a.mapTerms (Term.subst θ) = fill θ (u.subst θ)) ∧ t.unify w .empty = .ok s ∧
        e = combine (others ++ [⟨a, k.negated⟩]) s := by
  rw [replacements, List.mem_filterMap]
  constructor
  · rintro ⟨path, hpath, he⟩
    split at he
    · cases he
    rename_i w hat
    split at he
    · rename_i s hs
      cases he
      exact ⟨w, fun θ u => (k.atom.subst θ).replaceAt path u, s, _, ⟨path, hpath, hat, fun _ _ => rfl⟩,
        fun θ => Atom.mapTerms_replaceAt hat u, hs, rfl⟩
    · cases he
  · rintro ⟨w, fill, s, a, ⟨path, hpath, hat, hfill⟩, ha, hs, rfl⟩
    refine ⟨path, hpath, ?_⟩
    simp only [hat, hs, Option.some.injEq]
    refine congrArg ofList ?_
    rw [List.map_append, List.map_append]
    have hsame : (k.atom.replaceAt path u).mapTerms (Term.subst s.apply) =
        a.mapTerms (Term.subst s.apply) := by
      rw [Atom.mapTerms_replaceAt hat, hfill, ha]
    exact congrArg (fun b => _ ++ [Literal.mk b k.negated]) hsame

theorem mem_paramodulants (hc : Increasing c.literals) (hd : Increasing d.literals) :
    e ∈ c.paramodulants σ d ↔ ∃ l r, ⟨.eq l r, false⟩ ∈ c.literals ∧
      ∃ t u, (t, u) ∈ [(l, r), (r, l)] ∧ ∃ k ∈ d.literals, k.isAnswer σ = false ∧
        e ∈ replacements t u k (c.literals.erase ⟨.eq l r, false⟩ ++ d.literals.erase k) := by
  rw [paramodulants, List.mem_flatMap]
  constructor
  · rintro ⟨⟨q, i⟩, hq, he⟩
    dsimp only at he
    split at he
    · rename_i l r
      obtain ⟨⟨t, u⟩, htu, he⟩ := List.mem_flatMap.mp he
      obtain ⟨⟨k, j⟩, hk, he⟩ := List.mem_flatMap.mp he
      dsimp only at he
      split at he
      · cases he
      rename_i hanswer
      rw [without_eq hc hq, without_eq hd hk] at he
      exact ⟨l, r, mem_of_mem_zipIdx hq, t, u, htu, k, mem_of_mem_zipIdx hk,
        Bool.of_not_eq_true hanswer, he⟩
    · cases he
  · rintro ⟨l, r, hq, t, u, htu, k, hk, hanswer, he⟩
    obtain ⟨i, hi⟩ := exists_mem_zipIdx hq
    obtain ⟨j, hj⟩ := exists_mem_zipIdx hk
    refine ⟨(_, i), hi, List.mem_flatMap.mpr ⟨(t, u), htu, List.mem_flatMap.mpr ⟨(k, j), hj, ?_⟩⟩⟩
    dsimp only
    rwa [if_neg (by simp [hanswer]), without_eq hc hi, without_eq hd hj]

theorem subst_carry_term {t w : Term} (hπ : c.Renews π) (ht : ∀ x, t.hasVar x = true → x ∈ c.vars)
    (hw : ∀ x, w.hasVar x = true → x ∈ c.vars) (h : t.subst θ = (w.rename ρ).subst θ) :
    t.subst (c.carry ρ π θ) = (w.rename π).subst (c.carry ρ π θ) := by
  rw [Term.rename, Term.subst_subst] at h ⊢
  rw [Term.subst_congr fun x hx => carry_of_mem_vars hπ (ht x hx), h]
  exact Term.subst_congr fun x hx => (carry_renamed hπ (hw x hx)).symm

/-- The literal with a replaced subterm is carried over like the others. -/
theorem under_carry_filled {w u : Term} {fill : (Symbol → Term) → Term → Atom} {a a' : Atom}
    (hπ : c.Renews π) (hk : k ∈ c.literals) (hplace : k.atom.Place w fill)
    (hu : ∀ x, u.hasVar x = true → x ∈ c.vars)
    (ha : ∀ θ, a.mapTerms (Term.subst θ) = fill (fun x => θ (ρ x)) (u.subst θ))
    (ha' : ∀ θ, a'.mapTerms (Term.subst θ) = fill (fun x => θ (π x)) (u.subst θ)) :
    [Literal.mk a' k.negated].map (·.under (c.carry ρ π θ)) =
      [Literal.mk a k.negated].map (·.under θ) := by
  refine congrArg (fun b => [Literal.mk b k.negated]) ?_
  rw [ha, ha', Term.subst_congr fun x hx => carry_of_mem_vars hπ (hu x hx)]
  exact hplace.fill_congr (fun x hx => carry_renamed hπ (mem_vars.mpr ⟨k, hk, hx⟩)) _

theorem exists_variant_paramodulant (hc : c.Normal) (hρ : c.Renews ρ) (hπ : c.Renews π)
    (he : e ∈ c.paramodulants σ (c.rename ρ)) :
    ∃ e' ∈ c.paramodulants σ (c.rename π), e'.Variants e := by
  obtain ⟨l, r, hq, t, u, htu, k', hk', hka, he⟩ :=
    (mem_paramodulants hc.increasing (normal_rename ρ c).increasing).mp he
  obtain ⟨k, hk, rfl⟩ := mem_under.mp hk'
  obtain ⟨w', fill', s, a, hcopied, ha, hs, rfl⟩ := mem_replacements.mp he
  obtain ⟨w, fill, hplace, rfl, rfl⟩ := Atom.place_rename.mp hcopied
  obtain ⟨ht, hu⟩ := eq_or_eq_of_mem_sides htu
  have htvars (x : Symbol) := mem_vars_of_side (x := x) hq ht
  have huvars (x : Symbol) := mem_vars_of_side (x := x) hq hu
  have hwvars (x : Symbol) (hx : w.hasVar x = true) : x ∈ c.vars :=
    mem_vars.mpr ⟨k, hk, hplace.hasVar hx⟩
  have hexact := Term.unify_exact settled_empty t (w.rename ρ)
  rw [hs] at hexact
  have hsolved := subst_carry_term hπ htvars hwvars hexact.solution
  obtain ⟨s', hs', hθ⟩ := (Term.unify_exact settled_empty _ _).exists_respects hsolved
  have hexact' := Term.unify_exact settled_empty t (w.rename π)
  rw [hs'] at hexact'
  have hη := hexact.respects_iff.mpr (subst_carry_term hρ htvars hwvars hexact'.solution)
  have hplace' := Atom.place_rename (ρ := π).mpr ⟨w, fill, hplace, rfl, rfl⟩
  obtain ⟨a', ha'⟩ := hplace'.exists_filled u
  refine ⟨combine (c.besides ⟨.eq l r, false⟩ k π ++ [⟨a', k.negated⟩]) s', ?_,
    c.carry ρ π s.apply, c.carry π ρ s'.apply, ?_, ?_⟩
  · refine (mem_paramodulants hc.increasing (normal_rename π c).increasing).mpr ⟨l, r, hq, t, u, htu,
      k.mapTerms (Term.rename π), mem_under.mpr ⟨k, hk, rfl⟩, ?_,
      mem_replacements.mpr ⟨_, _, s', a', hplace', ha', hs', rfl⟩⟩
    rw [Literal.isAnswer_under] at hka
    exact (Literal.isAnswer_under σ k _).trans hka
  · exact under_combine_carry hc hρ hπ hk hθ _ (under_carry_filled hπ hk hplace huvars ha ha')
  · exact under_combine_carry hc hπ hρ hk hη _ (under_carry_filled (k := k) hρ hk hplace huvars ha' ha)

/-- What a clause gives with one copy of itself it gives with another, up to
variables. -/
theorem exists_variant_selfConsequence (hc : c.Normal) {d d' : Clause} (hd : c.Copy d)
    (hd' : c.Copy d') (he : e ∈ Saturation.selfConsequences σ c d) :
    ∃ e' ∈ Saturation.selfConsequences σ c d', e'.Variants e := by
  obtain ⟨ρ, hρ, rfl⟩ := hd
  obtain ⟨π, hπ, rfl⟩ := hd'
  rcases List.mem_append.mp he with he | he
  · obtain ⟨e', he', hvariants⟩ := exists_variant_resolvent hc hρ hπ he
    exact ⟨e', List.mem_append_left _ he', hvariants⟩
  · obtain ⟨e', he', hvariants⟩ := exists_variant_paramodulant hc hρ hπ he
    exact ⟨e', List.mem_append_right _ he', hvariants⟩

end Clause

end Entailment
