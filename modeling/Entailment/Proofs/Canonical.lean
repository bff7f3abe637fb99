import Entailment.Proofs.Renaming

/-! Canonical forms and the names of variables. Literals are numbered through in the order
of their shapes, so the names matter where the shapes leave the order open: between
literals of one shape, and between the sides of an equation. A renaming that keeps the
order there keeps the canonical form. -/
namespace Entailment

section Sorting

variable {α κ : Type}

theorem perm_insertSorted (before : α → α → Bool) (a : α) (l : List α) :
    (insertSorted before a l).Perm (a :: l) := by
  induction l with
  | nil => exact .refl _
  | cons b l ih =>
    rw [insertSorted]
    split
    · exact (ih.cons b).trans (.swap a b l)
    · exact .refl _

theorem perm_sortBy (before : α → α → Bool) (l : List α) : (sortBy before l).Perm l := by
  unfold sortBy
  induction l with
  | nil => exact .refl _
  | cons a l ih => exact (perm_insertSorted before a _).trans (ih.cons a)

theorem sortBy_map {β : Type} (before : β → β → Bool) (f : α → β) (l : List α) :
    sortBy before (l.map f) = (sortBy (fun a b => before (f a) (f b)) l).map f := by
  have hinsert (a : α) (l : List α) : insertSorted before (f a) (l.map f) =
      (insertSorted (fun a b => before (f a) (f b)) a l).map f := by
    induction l with
    | nil => rfl
    | cons b l ih =>
      rw [List.map_cons, insertSorted, insertSorted, ih]
      split <;> rfl
  unfold sortBy
  induction l with
  | nil => rfl
  | cons a l ih => rw [List.map_cons, List.foldr_cons, ih, hinsert, List.foldr_cons]

variable [Ord κ] {key : α → κ} {S : α → α → Prop}

/-- By the key, and where it does not decide in the order of `S`. -/
def KeyOrder (key : α → κ) (S : α → α → Prop) (a b : α) : Prop :=
  compare (key a) (key b) = .lt ∨ compare (key a) (key b) = .eq ∧ S a b

variable [Std.TransOrd κ]

theorem KeyOrder.asymm (hS : ∀ a b, S a b → ¬ S b a) {a b : α} (h : KeyOrder key S a b) :
    ¬ KeyOrder key S b a := by
  unfold KeyOrder at h ⊢
  rw [Std.OrientedOrd.eq_swap (a := key b)]
  rcases h with h | ⟨h, hab⟩
  · simp [h]
  · simp [h, hS a b hab]

theorem keyOrder_insertSorted {a : α} {l : List α} (hl : l.Pairwise (KeyOrder key S))
    (ha : ∀ b ∈ l, S a b) :
    (insertSorted (fun a b => (compare (key a) (key b)).isLT) a l).Pairwise (KeyOrder key S) := by
  induction l with
  | nil => exact List.pairwise_singleton _ _
  | cons b l ih =>
    obtain ⟨hb, htail⟩ := List.pairwise_cons.mp hl
    obtain ⟨hab, ha⟩ := List.forall_mem_cons.mp ha
    rw [insertSorted]
    split
    · rename_i hlt
      refine List.pairwise_cons.mpr ⟨fun c hc => ?_, ih htail ha⟩
      rcases mem_insertSorted.mp hc with rfl | hc
      · exact .inl (Ordering.isLT_iff_eq_lt.mp hlt)
      · exact hb c hc
    · rename_i hge
      have hle : (compare (key a) (key b)).isLE := by
        rw [Std.OrientedOrd.eq_swap]
        cases h : compare (key b) (key a) <;> simp_all
      have hfirst {c : α} (hc : (compare (key b) (key c)).isLE) (hS : S a c) :
          KeyOrder key S a c := by
        have hac := Std.TransCmp.isLE_trans hle hc
        cases h : compare (key a) (key c) with
        | lt => exact .inl h
        | eq => exact .inr ⟨h, hS⟩
        | gt => simp [h] at hac
      refine List.pairwise_cons.mpr ⟨List.forall_mem_cons.mpr ⟨hfirst (by simp) hab, ?_⟩, hl⟩
      intro c hc
      refine hfirst ?_ (ha c hc)
      rcases hb c hc with h | ⟨h, -⟩ <;> simp [h]

/-- Sorting is stable. -/
theorem keyOrder_sortBy {l : List α} (h : l.Pairwise S) :
    (sortBy (fun a b => (compare (key a) (key b)).isLT) l).Pairwise (KeyOrder key S) := by
  unfold sortBy
  induction l with
  | nil => exact .nil
  | cons a l ih =>
    obtain ⟨ha, htail⟩ := List.pairwise_cons.mp h
    refine keyOrder_insertSorted (ih htail) fun b hb => ha b ?_
    exact mem_sortBy.mp hb

end Sorting

namespace Term

variable {π : Symbol → Symbol}

theorem addVars_rename {found : List Symbol} {t : Term}
    (h : Set.InjOn π {x | x ∈ t.addVars found}) :
    (t.rename π).addVars (found.map π) = (t.addVars found).map π := by
  induction t using rec_args generalizing found with
  | var y =>
    have hmem : π y ∈ found.map π ↔ y ∈ found := by
      refine ⟨fun hy => ?_, List.mem_map_of_mem⟩
      obtain ⟨x, hx, hxy⟩ := List.mem_map.mp hy
      exact h (mem_addVars.mpr (.inl hx)) (mem_addVars.mpr (.inr (by simp))) hxy ▸ hx
    rw [rename, subst, addVars, addVars]
    simp only [List.contains_iff_mem, hmem]
    split
    · rfl
    · rw [List.map_append, List.map_singleton]
  | const c => rfl
  | app f args ih =>
    rw [rename, subst, substAll_eq, addVars, addVars, addVarsAll_eq, addVarsAll_eq]
    rw [addVars, addVarsAll_eq] at h
    induction args generalizing found with
    | nil => rfl
    | cons t ts ihs =>
      have hhead : Set.InjOn π {x | x ∈ t.addVars found} := by
        refine h.mono fun x hx => ?_
        rw [Set.mem_ofPred_eq, List.foldl_cons, ← addVarsAll_eq]
        exact (mem_addVars (t := app f ts)).mpr (.inl hx)
      rw [List.map_cons, List.foldl_cons, List.foldl_cons,
        ← ihs (fun u hu => ih u (List.mem_cons_of_mem t hu)) h, ← ih t List.mem_cons_self hhead]
      rfl

/-- Variables are listed by place, not by name. -/
theorem varsOf_map_rename {ts : List Term} (h : Set.InjOn π {x | x ∈ varsOf ts}) :
    varsOf (ts.map (rename π)) = (varsOf ts).map π := by
  have hall : ((app default ts).rename π).addVars ([].map π) = _ := addVars_rename h
  rw [rename, subst, substAll_eq] at hall
  exact hall

mutual

/-- Whether the names of variables have no part in the order of the terms: they do not
differ first in two variables. -/
def steady : Term → Term → Bool
  | .var x, .var y => x == y
  | .app f ts, .app g us => f != g || steadyAll ts us
  | _, _ => true

def steadyAll : List Term → List Term → Bool
  | t :: ts, u :: us => t.steady u && (t != u || steadyAll ts us)
  | _, _ => true

end

mutual

theorem cmp_rename (π : Symbol → Symbol) :
    ∀ {t u : Term}, t.steady u = true → cmp (t.rename π) (u.rename π) = cmp t u
  | .var x, .var y, h => by
    rw [steady, beq_iff_eq] at h
    rw [h, cmp_self, cmp_self]
  | .app f ts, .app g us, h => by
    rw [steady, Bool.or_eq_true, bne_iff_ne] at h
    simp only [rename, subst, substAll_eq, cmp]
    cases hfg : compare f g with
    | eq =>
      have hargs := h.resolve_left (not_not.mpr (Std.compare_eq_iff_eq.mp hfg))
      exact cmpAll_rename π hargs
    | lt => rfl
    | gt => rfl
  | .var _, .const _, _ => rfl
  | .var _, .app .., _ => rfl
  | .const _, .var _, _ => rfl
  | .const _, .const _, _ => rfl
  | .const _, .app .., _ => rfl
  | .app .., .var _, _ => rfl
  | .app .., .const _, _ => rfl

theorem cmpAll_rename (π : Symbol → Symbol) : ∀ {ts us : List Term}, steadyAll ts us = true →
    cmpAll (ts.map (rename π)) (us.map (rename π)) = cmpAll ts us
  | [], [], _ => rfl
  | [], _ :: _, _ => rfl
  | _ :: _, [], _ => rfl
  | t :: ts, u :: us, h => by
    rw [steadyAll, Bool.and_eq_true, Bool.or_eq_true, bne_iff_ne] at h
    rw [List.map_cons, List.map_cons, cmpAll, cmpAll, cmp_rename π h.1]
    cases htu : cmp t u with
    | eq =>
      -- later terms count only after equal ones
      have hrest := h.2.resolve_left (not_not.mpr (eq_of_cmp htu))
      rw [cmpAll_rename π hrest]
    | lt => rfl
    | gt => rfl

end

mutual

/-- Variables that keep their order keep the order of terms. -/
theorem cmp_rename_of_vars : ∀ {t u : Term},
    (∀ x y, t.hasVar x = true → u.hasVar y = true → compare (π x) (π y) = compare x y) →
    cmp (t.rename π) (u.rename π) = cmp t u
  | .var x, .var y, h => h x y (by simp) (by simp)
  | .app f ts, .app g us, h => by
    simp only [rename, subst, substAll_eq, cmp]
    have hargs : cmpAll (ts.map (rename π)) (us.map (rename π)) = cmpAll ts us := by
      refine cmpAll_rename_of_vars fun t ht u hu x y hx hy => h x y ?_ ?_
      · exact (hasVar_app x f ts).mpr ⟨t, ht, hx⟩
      · exact (hasVar_app y g us).mpr ⟨u, hu, hy⟩
    exact congrArg (compare f g).then hargs
  | .var _, .const _, _ => rfl
  | .var _, .app .., _ => rfl
  | .const _, .var _, _ => rfl
  | .const _, .const _, _ => rfl
  | .const _, .app .., _ => rfl
  | .app .., .var _, _ => rfl
  | .app .., .const _, _ => rfl

theorem cmpAll_rename_of_vars : ∀ {ts us : List Term},
    (∀ t ∈ ts, ∀ u ∈ us, ∀ x y, t.hasVar x = true → u.hasVar y = true →
      compare (π x) (π y) = compare x y) →
    cmpAll (ts.map (rename π)) (us.map (rename π)) = cmpAll ts us
  | [], [], _ => rfl
  | [], _ :: _, _ => rfl
  | _ :: _, [], _ => rfl
  | t :: ts, u :: us, h => by
    rw [List.map_cons, List.map_cons, cmpAll, cmpAll,
      cmp_rename_of_vars (h t List.mem_cons_self u List.mem_cons_self),
      cmpAll_rename_of_vars fun t' ht u' hu =>
        h t' (List.mem_cons_of_mem t ht) u' (List.mem_cons_of_mem u hu)]

end

end Term

namespace Atom

variable {a b : Atom} {π : Symbol → Symbol}

theorem compare_subst_of_vars (h : ∀ t ∈ a.terms, ∀ u ∈ b.terms, ∀ x y, t.hasVar x = true →
      u.hasVar y = true → compare (π x) (π y) = compare x y) :
    compare (a.subst fun x => .var (π x)) (b.subst fun x => .var (π x)) = compare a b := by
  cases a with
  | rel r ts =>
    cases b with
    | rel q us => exact congrArg (compare r q).then (Term.cmpAll_rename_of_vars h)
    | eq l' r' => rfl
  | eq l r =>
    cases b with
    | rel q us => rfl
    | eq l' r' =>
      have hl := Term.cmp_rename_of_vars (h l (by simp [terms]) l' (by simp [terms]))
      have hr := Term.cmp_rename_of_vars (h r (by simp [terms]) r' (by simp [terms]))
      exact congrArg₂ Ordering.then hl hr

/-- The sides of an equation do not differ first in two variables. -/
def steady : Atom → Bool
  | .rel .. => true
  | .eq l r => l.steady r

/-- Equations stay in order where the order of their sides does not change. -/
theorem ordered_subst (ha : a.Ordered)
    (h : ∀ l r, a = .eq l r → Term.cmp (l.rename π) (r.rename π) = Term.cmp l r) :
    (a.subst fun x => .var (π x)).Ordered := by
  cases a with
  | rel r ts => trivial
  | eq l r =>
    change ¬ r.rename π < l.rename π
    rw [Term.lt_def, Term.cmp_swap, h l r rfl, ← Term.cmp_swap]
    exact ha

end Atom

namespace Symbols

/-- In a later table, the names are found where they were put. -/
theorem fst_internAll {names : List String} {σ υ : Symbols} (h : (internAll names σ).2 ≤ υ) :
    (internAll names σ).1 = names.map υ.find := by
  induction names generalizing σ with
  | nil => rfl
  | cons name names ih =>
    rw [internAll_cons] at h ⊢
    have hhead := find_intern ((le_internAll names (intern name σ).2).trans h)
    rw [List.map_cons, hhead, ih h]

end Symbols

theorem lookup_zip_map {π : Symbol → Symbol} {xs ys : List Symbol} {x : Symbol}
    (h : Set.InjOn π {z | z ∈ xs}) (hx : x ∈ xs) :
    ((xs.map π).zip ys).lookup (π x) = (xs.zip ys).lookup x := by
  induction xs generalizing ys with
  | nil => cases hx
  | cons z xs ih =>
    cases ys with
    | nil => rfl
    | cons y ys =>
      have hhead : π x = π z ↔ x = z := ⟨fun hxz => h hx List.mem_cons_self hxz, congrArg π⟩
      rw [List.map_cons, List.zip_cons_cons, List.zip_cons_cons, Symbol.lookup_cons,
        Symbol.lookup_cons]
      simp only [hhead]
      split
      · rfl
      · rename_i hne
        refine ih (h.mono fun w hw => List.mem_cons_of_mem z hw) ?_
        exact (List.mem_cons.mp hx).resolve_left hne

namespace Literal

variable {l k : Literal} {π : Symbol → Symbol}

/-- The literals differ only in their variables. -/
def SameShape (l k : Literal) : Prop := Clause.erase default l = Clause.erase default k

instance (l k : Literal) : Decidable (l.SameShape k) := inferInstanceAs (Decidable (_ = _))

theorem erase_under (v : Symbol) (π : Symbol → Symbol) (l : Literal) :
    Clause.erase v (l.under fun x => .var (π x)) = Clause.erase v l := under_under l _ _

theorem SameShape.of_erase {v : Symbol} (h : Clause.erase v l = Clause.erase v k) :
    l.SameShape k := by
  have hl := erase_under default (fun _ => v) l
  have hk := erase_under default (fun _ => v) k
  exact (hl.symm.trans (congrArg (Clause.erase default) h)).trans hk

/-- The sides of an equation change places only if they are out of order. -/
theorem under_eq (h : (l.atom.subst fun x => .var (π x)).Ordered) :
    (l.under fun x => .var (π x)) = ⟨l.atom.subst fun x => .var (π x), l.negated⟩ := by
  obtain ⟨a, n⟩ := l
  cases a with
  | rel r args => rfl
  | eq s t => exact congrArg (Literal.mk · n) (if_neg h)

theorem terms_under (h : (l.atom.subst fun x => .var (π x)).Ordered) :
    (l.under fun x => .var (π x)).terms = l.terms.map (Term.rename π) := by
  rw [under_eq h]
  obtain ⟨a, n⟩ := l
  cases a <;> rfl

end Literal

namespace Clause

variable {c : Clause} {π ρ : Symbol → Symbol} {σ τ υ : Symbols}

/-- The renaming keeps what the shapes of literals leave open: the order of the sides of
an equation and of literals of one shape. -/
structure KeepsOrder (π : Symbol → Symbol) (c : Clause) : Prop where
  sides : ∀ l ∈ c.literals, (l.atom.subst fun x => .var (π x)).Ordered
  literals : ∀ l ∈ c.literals, ∀ k ∈ c.literals, l.SameShape k → compare l k = .lt →
    compare (l.under fun x => .var (π x)) (k.under fun x => .var (π x)) = .lt

/-- The shapes leave nothing open: no two literals have the same, and no equation has
sides that differ first in two variables. -/
structure Rigid (c : Clause) : Prop where
  sides : ∀ l ∈ c.literals, l.atom.steady = true
  shapes : ∀ l ∈ c.literals, ∀ k ∈ c.literals, l.SameShape k → l = k

instance (c : Clause) : Decidable c.Rigid :=
  decidable_of_iff ((∀ l ∈ c.literals, l.atom.steady = true) ∧
      ∀ l ∈ c.literals, ∀ k ∈ c.literals, l.SameShape k → l = k)
    ⟨fun h => ⟨h.1, h.2⟩, fun h => ⟨h.sides, h.shapes⟩⟩

theorem Rigid.keepsOrder (h : c.Rigid) (hc : c.Normal) (π : Symbol → Symbol) : c.KeepsOrder π where
  sides := by
    intro l hl
    refine Atom.ordered_subst (hc.ordered l hl) fun s t hst => Term.cmp_rename π ?_
    have hsides := h.sides l hl
    rwa [hst] at hsides
  literals := by
    intro l hl k hk hshape hlt
    rw [h.shapes l hl k hk hshape] at hlt
    simp at hlt

/-- The renaming keeps the variables of the clause in the order of their symbols. -/
def KeepsRank (π : Symbol → Symbol) (c : Clause) : Prop :=
  ∀ x ∈ c.vars, ∀ y ∈ c.vars, x < y → π x < π y

theorem KeepsRank.compare_eq (h : c.KeepsRank π) {x y : Symbol} (hx : x ∈ c.vars)
    (hy : y ∈ c.vars) : compare (π x) (π y) = compare x y := by
  have hxy := h x hx y hy
  have hyx := h y hy x hx
  simp only [Symbol.lt_def, ← Nat.compare_eq_lt, ← Symbol.compare_def] at hxy hyx
  cases hcmp : compare x y with
  | lt => exact hxy hcmp
  | eq => rw [Std.compare_eq_iff_eq.mp hcmp, Std.ReflOrd.compare_self]
  | gt =>
    rw [Std.OrientedOrd.eq_swap] at hcmp ⊢
    rw [hyx (by simpa using hcmp)]
    rfl

theorem KeepsRank.keepsOrder (h : c.KeepsRank π) (hc : c.Normal) : c.KeepsOrder π := by
  have hvars {l k : Literal} (hl : l ∈ c.literals) (hk : k ∈ c.literals) :
      ∀ t ∈ l.terms, ∀ u ∈ k.terms, ∀ x y, t.hasVar x = true → u.hasVar y = true →
        compare (π x) (π y) = compare x y := fun t ht u hu x y hx hy =>
    h.compare_eq (mem_vars.mpr ⟨l, hl, t, ht, hx⟩) (mem_vars.mpr ⟨k, hk, u, hu, hy⟩)
  have hsides (l : Literal) (hl : l ∈ c.literals) : (l.atom.subst fun x => .var (π x)).Ordered := by
    refine Atom.ordered_subst (hc.ordered l hl) fun s t hst => Term.cmp_rename_of_vars ?_
    exact hvars hl hl s (by simp [Literal.terms, Atom.terms, hst]) t
      (by simp [Literal.terms, Atom.terms, hst])
  refine ⟨hsides, fun l hl k hk _ hlt => ?_⟩
  rw [Literal.under_eq (hsides l hl), Literal.under_eq (hsides k hk), Literal.compare_eq,
    Atom.compare_subst_of_vars (hvars hl hk)]
  exact hlt

/-- The literals by their shape, where `v` stands for all variables. -/
def inShapeOrder (v : Symbol) (ls : List Literal) : List Literal :=
  sortBy (fun l k => (compare (erase v l) (erase v k)).isLT) ls

theorem fst_byShape {ls : List Literal} (h : (byShape ls σ).2 ≤ υ) :
    (byShape ls σ).1 = inShapeOrder (υ.find "$v") ls := by
  match ls with
  -- nothing is sorted, whatever the table finds under the name
  | [] | [_] => rfl
  | l :: k :: ls =>
    have hv : υ.find "$v" = (Symbols.intern "$v" σ).1 := Symbols.find_intern h
    change (sortBy _ ((l :: k :: ls).map fun l => (erase _ l, l))).map Prod.snd = _
    rw [sortBy_map, List.map_map, hv]
    exact List.map_id _

theorem under_injOn (hc : c.Normal) (h : c.KeepsApart π) :
    ∀ l ∈ c.literals, ∀ k ∈ c.literals,
      (l.under fun x => .var (π x)) = (k.under fun x => .var (π x)) → l = k := by
  obtain ⟨back, hback⟩ := h.exists_back
  have hself (l : Literal) (hl : l ∈ c.literals) :
      ((l.under fun x => .var (π x)).under fun y => .var (back y)) = l := by
    rw [Literal.under_under]
    refine (Literal.under_congr fun x hx => ?_).trans (Literal.under_var (hc.ordered l hl))
    exact congrArg Term.var (hback x (mem_vars.mpr ⟨l, hl, hx⟩))
  intro l hl k hk heq
  rw [← hself l hl, ← hself k hk, heq]

theorem perm_literals_rename (hc : c.Normal) (h : c.KeepsApart π) :
    (c.rename π).literals.Perm (c.literals.map (·.under fun x => .var (π x))) := by
  have hnodup := List.Nodup.map_on (under_injOn hc h) hc.increasing.nodup
  refine (List.perm_ext_iff_of_nodup (increasing_under c _).nodup hnodup).mpr fun l => ?_
  rw [List.mem_map]
  exact mem_under

theorem inShapeOrder_rename (hc : c.Normal) (h : c.KeepsApart π) (ho : c.KeepsOrder π)
    (v : Symbol) : inShapeOrder v (c.rename π).literals =
      (inShapeOrder v c.literals).map (·.under fun x => .var (π x)) := by
  -- both lists hold the literals of the copy, by shape and within a shape increasing, and
  -- there is only one way to list them so
  have hleft : (inShapeOrder v (c.rename π).literals).Pairwise
      (KeyOrder (erase v) fun l k => compare l k = .lt) := keyOrder_sortBy (increasing_under c _)
  have hright : ((inShapeOrder v c.literals).map (·.under fun x => .var (π x))).Pairwise
      (KeyOrder (erase v) fun l k => compare l k = .lt) := by
    refine List.pairwise_map.mpr (List.Pairwise.imp_of_mem ?_ (keyOrder_sortBy hc.increasing))
    intro l k hl hk hlk
    unfold KeyOrder
    rw [Literal.erase_under, Literal.erase_under]
    refine hlk.imp_right fun ⟨heq, hlt⟩ => ⟨heq, ?_⟩
    exact ho.literals l (mem_sortBy.mp hl) k (mem_sortBy.mp hk)
      (.of_erase (Std.compare_eq_iff_eq.mp heq)) hlt
  refine List.Perm.eq_of_pairwise ?_ hleft hright ?_
  · intro l k _ _ hlk hkl
    refine absurd hkl (hlk.asymm fun l k hlt => ?_)
    rw [Std.OrientedOrd.eq_swap, hlt]
    simp
  · exact (perm_sortBy _ _).trans ((perm_literals_rename hc h).trans ((perm_sortBy _ _).symm.map _))

/-- The names that variables get by their places in the list. -/
def placeNames (υ : Symbols) (xs : List Symbol) : List (Symbol × Symbol) :=
  xs.zip ((List.range' 1 xs.length).map fun n => υ.find ("$v" ++ toString n))

theorem renamedBy_placeNames_map {xs : List Symbol} {x : Symbol} (h : Set.InjOn π {z | z ∈ xs})
    (hx : x ∈ xs) :
    renamedBy (placeNames υ (xs.map π)) (π x) = renamedBy (placeNames υ xs) x := by
  have hlookup : (placeNames υ (xs.map π)).lookup (π x) = (placeNames υ xs).lookup x := by
    unfold placeNames
    rw [List.length_map, lookup_zip_map h hx]
  have hkeys : (placeNames υ xs).map Prod.fst = xs := List.map_fst_zip (by simp)
  obtain ⟨y, hy⟩ := exists_lookup (hkeys.symm ▸ hx)
  rw [renamedBy, renamedBy, hlookup, hy, Option.getD_some, Option.getD_some]

/-- The literals with their variables numbered through. -/
def numbered (υ : Symbols) (ls : List Literal) : List Literal :=
  let names := placeNames υ (Term.varsOf (ls.flatMap Literal.terms))
  ls.map (·.under fun x => .var (renamedBy names x))

theorem numbered_rename {ls : List Literal}
    (h : Set.InjOn π {x | x ∈ Term.varsOf (ls.flatMap Literal.terms)})
    (ho : ∀ l ∈ ls, (l.atom.subst fun x => .var (π x)).Ordered) :
    numbered υ (ls.map (·.under fun x => .var (π x))) = numbered υ ls := by
  have hterms : (ls.map (·.under fun x => .var (π x))).flatMap Literal.terms =
      (ls.flatMap Literal.terms).map (Term.rename π) := by
    rw [List.flatMap_map, List.map_flatMap]
    exact List.flatMap_congr fun l hl => Literal.terms_under (ho l hl)
  dsimp only [numbered]
  rw [hterms, Term.varsOf_map_rename h, List.map_map]
  refine List.map_congr_left fun l hl => ?_
  refine (Literal.under_under l _ _).trans (Literal.under_congr fun x ⟨t, ht, hx⟩ => ?_)
  have hxs : x ∈ Term.varsOf (ls.flatMap Literal.terms) :=
    Term.mem_varsOf.mpr ⟨t, List.mem_flatMap.mpr ⟨l, hl, ht⟩, hx⟩
  exact congrArg Term.var (renamedBy_placeNames_map h hxs)

/-- The canonical form by a table that has the names for it. -/
theorem fst_canonical (h : (c.canonical σ).2 ≤ υ) :
    (c.canonical σ).1 = ofList (numbered υ (inShapeOrder (υ.find "$v") c.literals)) := by
  let ls := byShape c.literals σ
  let xs := Term.varsOf (ls.1.flatMap Literal.terms)
  let labels := (List.range' 1 xs.length).map fun n => "$v" ++ toString n
  have hls : ls.1 = inShapeOrder (υ.find "$v") c.literals :=
    fst_byShape ((Symbols.le_internAll labels ls.2).trans h)
  have hlabels : (Symbols.internAll labels ls.2).1 = labels.map υ.find := Symbols.fst_internAll h
  rw [List.map_map] at hlabels
  rw [← hls]
  change ofList (ls.1.map (·.under fun x =>
    .var (renamedBy (xs.zip (Symbols.internAll labels ls.2).1) x))) = _
  rw [hlabels]
  rfl

theorem fst_canonical_rename (hc : c.Normal) (h : c.KeepsApart π) (ho : c.KeepsOrder π)
    (hσ : (c.canonical σ).2 ≤ υ) (hτ : ((c.rename π).canonical τ).2 ≤ υ) :
    ((c.rename π).canonical τ).1 = (c.canonical σ).1 := by
  rw [fst_canonical hσ, fst_canonical hτ, inShapeOrder_rename hc h ho]
  refine congrArg ofList (numbered_rename (Set.InjOn.mono (fun x hx => ?_) h) ?_)
  · simpa only [Set.mem_ofPred_eq, vars, Term.mem_varsOf, List.mem_flatMap, inShapeOrder,
      mem_sortBy] using hx
  · exact fun l hl => ho.sides l (mem_sortBy.mp hl)

theorem rename_rename (c : Clause) (π ρ : Symbol → Symbol) :
    (c.rename π).rename ρ = c.rename (ρ ∘ π) := under_under c _ _

theorem keepsApart_comp (h : c.KeepsApart π) (hρ : (c.rename π).KeepsApart ρ) :
    c.KeepsApart (ρ ∘ π) :=
  Set.InjOn.comp hρ h fun x hx => mem_vars_rename.mpr ⟨x, hx, rfl⟩

/-- Two copies of a clause are copies of each other. -/
theorem exists_rename_eq (h : c.KeepsApart π) (hρ : c.KeepsApart ρ) :
    ∃ κ, (c.rename π).KeepsApart κ ∧ c.rename ρ = (c.rename π).rename κ := by
  obtain ⟨back, hback⟩ := h.exists_back
  refine ⟨ρ ∘ back, ?_, ?_⟩
  · intro y hy y' hy' heq
    obtain ⟨x, hx, rfl⟩ := mem_vars_rename.mp hy
    obtain ⟨x', hx', rfl⟩ := mem_vars_rename.mp hy'
    simp only [Function.comp_apply, hback x hx, hback x' hx'] at heq
    rw [hρ hx hx' heq]
  · rw [rename_rename]
    refine under_congr fun x hx => ?_
    rw [Function.comp_apply, Function.comp_apply, hback x hx]

/-- The canonical forms that a clause and a copy of it have in one session are copies of
each other. They are the same if the renaming keeps the order where the shapes leave it
open; for that it is enough that variables keep their order, or that the shapes leave
nothing open. -/
theorem canonical_rename (hc : c.Normal) (h : c.KeepsApart π)
    (hσ : (c.canonical σ).2 ≤ υ) (hτ : ((c.rename π).canonical τ).2 ≤ υ) :
    (∃ ρ, (c.canonical σ).1.KeepsApart ρ ∧
      ((c.rename π).canonical τ).1 = (c.canonical σ).1.rename ρ) ∧
    (c.KeepsOrder π ∨ c.KeepsRank π ∨ c.Rigid →
      ((c.rename π).canonical τ).1 = (c.canonical σ).1) := by
  constructor
  · obtain ⟨ρ, hρ, heq⟩ := c.exists_canonical_eq_rename σ
    obtain ⟨κ, hκ, heq'⟩ := (c.rename π).exists_canonical_eq_rename τ
    rw [heq, heq', rename_rename]
    exact exists_rename_eq hρ (keepsApart_comp h hκ)
  · intro ho
    refine fst_canonical_rename hc h ?_ hσ hτ
    rcases ho with ho | hrank | hrigid
    · exact ho
    · exact hrank.keepsOrder hc
    · exact hrigid.keepsOrder hc π

/-- The names `P`, `x`, `y`, `z`, `h`, `a`, `b`, in this order. -/
def lettersTable : Symbols := (Symbols.internAll ["P", "x", "y", "z", "h", "a", "b"] .empty).2

/-- `x` and `y` change places. -/
def exchange : Symbol → Symbol := Equiv.swap ⟨1⟩ ⟨2⟩

/-- `{P(x, y), ¬P(y, x), h(x, a) = h(h(y, x), b)}` -/
def distinctShapes : Clause :=
  ⟨[⟨.rel ⟨0⟩ [.var ⟨1⟩, .var ⟨2⟩], false⟩, ⟨.rel ⟨0⟩ [.var ⟨2⟩, .var ⟨1⟩], true⟩,
    ⟨.eq (.app ⟨4⟩ [.var ⟨1⟩, .const ⟨5⟩])
      (.app ⟨4⟩ [.app ⟨4⟩ [.var ⟨2⟩, .var ⟨1⟩], .const ⟨6⟩]), false⟩]⟩

theorem canonical_rename_distinctShapes :
    (distinctShapes.Normal ∧ distinctShapes.KeepsApart exchange ∧ distinctShapes.Rigid) ∧
    distinctShapes.rename exchange ≠ distinctShapes ∧
    ((distinctShapes.rename exchange).canonical (distinctShapes.canonical lettersTable).2).1 =
      (distinctShapes.canonical lettersTable).1 := by
  have hnormal : distinctShapes.Normal := by decide
  have hapart : distinctShapes.KeepsApart exchange := (Equiv.swap _ _).injective.injOn
  have hrigid : distinctShapes.Rigid := by decide
  refine ⟨⟨hnormal, hapart, hrigid⟩, by decide, ?_⟩
  exact (canonical_rename hnormal hapart (le_canonical _ _) le_rfl).2 (.inr (.inr hrigid))

/-- `{P(x, y), P(y, z)}` -/
def chained : Clause :=
  ⟨[⟨.rel ⟨0⟩ [.var ⟨1⟩, .var ⟨2⟩], false⟩, ⟨.rel ⟨0⟩ [.var ⟨2⟩, .var ⟨3⟩], false⟩]⟩

/-- `{h(x, a) = h(y, b)}` -/
def balanced : Clause :=
  ⟨[⟨.eq (.app ⟨4⟩ [.var ⟨1⟩, .const ⟨5⟩]) (.app ⟨4⟩ [.var ⟨2⟩, .const ⟨6⟩]), false⟩]⟩

/-- Copies may have other canonical forms, because of literals of one shape and because of
the sides of an equation. -/
theorem canonical_rename_ne :
    (chained.Normal ∧ chained.KeepsApart exchange ∧
      ((chained.rename exchange).canonical (chained.canonical lettersTable).2).1 ≠
        (chained.canonical lettersTable).1) ∧
    (balanced.Normal ∧ balanced.KeepsApart exchange ∧
      ((balanced.rename exchange).canonical (balanced.canonical lettersTable).2).1 ≠
        (balanced.canonical lettersTable).1) := by
  have hapart (c : Clause) : c.KeepsApart exchange := (Equiv.swap _ _).injective.injOn
  refine ⟨⟨by decide, hapart _, ?_⟩, by decide, hapart _, ?_⟩ <;> decide +kernel

end Clause

end Entailment
