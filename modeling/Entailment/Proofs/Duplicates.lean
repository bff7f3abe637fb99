import Entailment.Proofs.Course
import Entailment.Proofs.Embedding

/-! Duplicates. Every clause is a variant of its canonical form, so clauses with one form
are variants of each other, and a search drops a clause as a duplicate only after it has
taken in a variant of it. -/
namespace Entailment

namespace Atom

variable {a b d : Atom}

theorem Alike.symm (h : a.Alike b) : b.Alike a := by
  obtain ⟨turn, rfl⟩ := h
  exact ⟨turn, (turned_turned turn b).symm⟩

theorem Alike.trans (h : a.Alike b) (h' : b.Alike d) : a.Alike d := by
  obtain ⟨i, rfl⟩ := h
  obtain ⟨j, rfl⟩ := h'
  exact ⟨j ^^ i, turned_xor j i d⟩

theorem Alike.subst (h : a.Alike b) (θ : Symbol → Term) : (a.subst θ).Alike (b.subst θ) := by
  obtain ⟨turn, rfl⟩ := h
  exact ⟨turn, turned_subst turn θ b⟩

theorem subst_eq_self {θ : Symbol → Term} (h : ∀ x, a.HasVar x → θ x = .var x) :
    a.subst θ = a := by
  rw [subst_congr h]
  cases a with
  | rel r args =>
    have hself : Term.subst .var = id := funext Term.subst_var_eq
    rw [subst, hself, List.map_id]
  | eq l r => rw [subst, Term.subst_var_eq, Term.subst_var_eq]

end Atom

namespace Literal

variable {l k m : Literal} {ls ks ms : List Literal}

theorem Alike.symm (h : l.Alike k) : k.Alike l := ⟨h.1.symm, h.2.symm⟩

theorem Alike.trans (h : l.Alike k) (h' : k.Alike m) : l.Alike m :=
  ⟨h.1.trans h'.1, h.2.trans h'.2⟩

theorem Alike.subst (h : l.Alike k) (θ : Symbol → Term) : (l.subst θ).Alike (k.subst θ) :=
  ⟨h.1, h.2.subst θ⟩

theorem under_alike (l : Literal) (θ : Symbol → Term) : (l.under θ).Alike (l.subst θ) :=
  ⟨rfl, Atom.exists_mapTerms_eq_turned θ l.atom⟩

theorem Alike.hasVar {x : Symbol} (h : l.Alike k) (hx : l.HasVar x) : k.HasVar x := by
  obtain ⟨turn, hturn⟩ := h.2
  have hx' : (k.atom.turned turn).HasVar x := hturn ▸ hx
  exact Atom.hasVar_turned hx'

theorem hasVar_subst {θ : Symbol → Term} {y : Symbol} :
    (l.subst θ).HasVar y ↔ ∃ x, l.HasVar x ∧ (θ x).hasVar y = true := by
  rw [← hasVar_under]
  exact ⟨(l.under_alike θ).symm.hasVar, (l.under_alike θ).hasVar⟩

theorem subst_subst (θ η : Symbol → Term) (l : Literal) :
    (l.subst θ).subst η = l.subst fun x => (θ x).subst η := by
  simp only [subst, Atom.subst_subst]

theorem subst_eq_self {θ : Symbol → Term} (h : ∀ x, l.HasVar x → θ x = .var x) :
    l.subst θ = l := by
  rw [subst, Atom.subst_eq_self h]

theorem SameSet.symm (h : SameSet ls ks) : SameSet ks ls := ⟨h.2, h.1⟩

theorem SameSet.trans (h : SameSet ls ks) (h' : SameSet ks ms) : SameSet ls ms := by
  have hpart {ls ks ms : List Literal} (h : ∀ l ∈ ls, ∃ k ∈ ks, l.Alike k)
      (h' : ∀ k ∈ ks, ∃ m ∈ ms, k.Alike m) : ∀ l ∈ ls, ∃ m ∈ ms, l.Alike m := by
    intro l hl
    obtain ⟨k, hk, hlk⟩ := h l hl
    obtain ⟨m, hm, hkm⟩ := h' k hk
    exact ⟨m, hm, hlk.trans hkm⟩
  exact ⟨hpart h.1 h'.1, hpart h'.2 h.2⟩

theorem SameSet.map_subst (h : SameSet ls ks) (θ : Symbol → Term) :
    SameSet (ls.map (subst θ)) (ks.map (subst θ)) := by
  have hpart {ls ks : List Literal} (h : ∀ l ∈ ls, ∃ k ∈ ks, l.Alike k) :
      ∀ l ∈ ls.map (subst θ), ∃ k ∈ ks.map (subst θ), l.Alike k := by
    intro _ hmap
    obtain ⟨l, hl, rfl⟩ := List.mem_map.mp hmap
    obtain ⟨k, hk, halike⟩ := h l hl
    exact ⟨_, List.mem_map_of_mem hk, halike.subst θ⟩
  exact ⟨hpart h.1, hpart h.2⟩

end Literal

namespace Clause

variable {c d e : Clause}

/-- `d` has the literals of `c` after an injective renaming of its variables, where the
sides of an equation have no order. -/
def AlphaVariant (c d : Clause) : Prop :=
  ∃ π : Symbol → Symbol, c.KeepsApart π ∧
    Literal.SameSet (c.literals.map (Literal.subst fun x => .var (π x))) d.literals

/-- The variables of the other clause are those that the renaming gives. -/
theorem mem_vars_of_sameSet {θ : Symbol → Term}
    (h : Literal.SameSet (c.literals.map (Literal.subst θ)) d.literals) {y : Symbol} :
    y ∈ d.vars ↔ ∃ x ∈ c.vars, (θ x).hasVar y = true := by
  constructor
  · intro hy
    obtain ⟨k, hk, hy⟩ := mem_vars.mp hy
    obtain ⟨_, hmap, halike⟩ := h.2 k hk
    obtain ⟨l, hl, rfl⟩ := List.mem_map.mp hmap
    obtain ⟨x, hx, hxy⟩ := Literal.hasVar_subst.mp (halike.hasVar hy)
    exact ⟨x, mem_vars.mpr ⟨l, hl, hx⟩, hxy⟩
  · rintro ⟨x, hx, hxy⟩
    obtain ⟨l, hl, hx⟩ := mem_vars.mp hx
    obtain ⟨k, hk, halike⟩ := h.1 _ (List.mem_map_of_mem hl)
    exact mem_vars.mpr ⟨k, hk, halike.hasVar (Literal.hasVar_subst.mpr ⟨x, hx, hxy⟩)⟩

namespace AlphaVariant

theorem symm (h : c.AlphaVariant d) : d.AlphaVariant c := by
  obtain ⟨π, hπ, hsame⟩ := h
  let ρ := Function.invFunOn π {x | x ∈ c.vars}
  have hback : (c.literals.map (Literal.subst fun x => .var (π x))).map
      (Literal.subst fun y => .var (ρ y)) = c.literals := by
    rw [List.map_map]
    refine (List.map_congr_left fun l hl => ?_).trans (List.map_id' c.literals)
    rw [Function.comp_apply, Literal.subst_subst]
    refine Literal.subst_eq_self fun x hx => congrArg Term.var ?_
    exact hπ.leftInvOn_invFunOn (mem_vars.mpr ⟨l, hl, hx⟩)
  have hforth (y : Symbol) (hy : y ∈ d.vars) : π (ρ y) = y := by
    obtain ⟨x, hx, hxy⟩ := (mem_vars_of_sameSet hsame).mp hy
    exact Function.invFunOn_eq ⟨x, hx, ((Term.hasVar_var y (π x)).mp hxy).symm⟩
  refine ⟨ρ, fun y hy z hz heq => ?_, ?_⟩
  · rw [← hforth y hy, ← hforth z hz, heq]
  · have hmapped := hsame.map_subst fun y => .var (ρ y)
    rw [hback] at hmapped
    exact hmapped.symm

theorem trans (h : c.AlphaVariant d) (h' : d.AlphaVariant e) : c.AlphaVariant e := by
  obtain ⟨π, hπ, hsame⟩ := h
  obtain ⟨ρ, hρ, hsame'⟩ := h'
  refine ⟨ρ ∘ π, hρ.comp hπ fun x hx => ?_, ?_⟩
  · exact (mem_vars_of_sameSet hsame).mpr ⟨x, hx, by simp⟩
  · have hmapped := hsame.map_subst fun y => .var (ρ y)
    rw [List.map_map] at hmapped
    simp only [Function.comp_def, Literal.subst_subst, Term.subst_var] at hmapped
    exact hmapped.trans hsame'

end AlphaVariant

theorem alphaVariant_rename {ρ : Symbol → Symbol} (h : c.KeepsApart ρ) :
    c.AlphaVariant (c.rename ρ) := by
  refine ⟨ρ, h, fun _ hmap => ?_, fun k hk => ?_⟩
  · obtain ⟨l, hl, rfl⟩ := List.mem_map.mp hmap
    exact ⟨_, under_mem_under hl, (l.under_alike _).symm⟩
  · obtain ⟨l, hl, rfl⟩ := mem_under.mp hk
    exact ⟨_, List.mem_map_of_mem hl, l.under_alike _⟩

theorem alphaVariant_canonical (c : Clause) (σ : Symbols) : c.AlphaVariant (c.canonical σ).1 := by
  obtain ⟨ρ, hρ, heq⟩ := c.exists_canonical_eq_rename σ
  rw [heq]
  exact alphaVariant_rename hρ

/-- It does not matter in which tables of names the forms were made. -/
theorem alphaVariant_of_canonical_eq {σ τ : Symbols}
    (h : (c.canonical σ).1 = (d.canonical τ).1) : c.AlphaVariant d :=
  (c.alphaVariant_canonical σ).trans (h ▸ (d.alphaVariant_canonical τ).symm)

end Clause

namespace Saturation

variable {cs : List Clause} {limits : Limits} {t₀ : Session}

/-- A search at work, with the clauses it has taken in, oldest first, and those that wait
to be taken in. -/
structure Intake where
  taken : List Clause
  waiting : List Clause
  search : Saturation
  session : Session

namespace Intake

def initial (cs : List Clause) (limits : Limits) (t : Session) : Intake :=
  ⟨[], cs, init limits, t⟩

/-- Clauses that wait are taken in one by one. When none waits, a clause can be selected,
findings can be reported, and other computations can add names. -/
inductive Step : Intake → Intake → Prop
  | take {taken waiting c s t} :
    Step ⟨taken, c :: waiting, s, t⟩ ⟨taken ++ [c], waiting, (insert c s t).1, (insert c s t).2⟩
  | select {taken s t id} (hpick : s.pick = some (id, s.picked id)) :
    Step ⟨taken, [], s, t⟩ ⟨taken, harvest id s t, (copied id s t).1.2, (copied id s t).2⟩
  | report {taken s t rest} (hrest : ∀ f ∈ rest, f ∈ s.pending) :
    Step ⟨taken, [], s, t⟩ ⟨taken, [], { s with pending := rest }, t⟩
  | elsewhere {taken s t t'} (hnames : t.symbols ≤ t'.symbols) :
    Step ⟨taken, [], s, t⟩ ⟨taken, [], s, t'⟩

abbrev Steps : Intake → Intake → Prop := Relation.ReflTransGen Step

theorem steps_insertAll (taken cs : List Clause) (s : Saturation) (t : Session) :
    Steps ⟨taken, cs, s, t⟩ ⟨taken ++ cs, [], (insertAll cs s t).1, (insertAll cs s t).2⟩ := by
  induction cs generalizing taken s t with
  | nil =>
    rw [List.append_nil]
    exact .refl
  | cons c cs ih =>
    rw [List.append_cons]
    exact .head .take (ih (taken ++ [c]) _ _)

/-- Every form that was looked at is that of a clause that was taken in. -/
def Recorded (w : Intake) : Prop :=
  ∀ form ∈ w.search.seen, ∃ d ∈ w.taken, ∃ σ, (d.canonical σ).1 = form

theorem seen_of_taken {σ : Symbols} {c form : Clause} {s s' : Saturation}
    (htaken : Taken σ c s s') (hform : form ∈ s'.seen) :
    form ∈ s.seen ∨ (c.canonical σ).1 = form := by
  cases htaken with
  | contradiction | tautology | answer | duplicate => exact .inl hform
  | subsumed | stored =>
    exact (Std.TreeSet.mem_insert.mp hform).symm.imp_right Std.LawfulEqCmp.eq_of_compare

theorem Recorded.step {w w' : Intake} (h : w.Recorded) (hstep : Step w w') : w'.Recorded := by
  cases hstep with
  | @take taken waiting c s t =>
    intro form hform
    rcases seen_of_taken (taken_insert c s t) hform with hold | hnew
    · obtain ⟨d, hd, hcanonical⟩ := h form hold
      exact ⟨d, List.mem_append_left _ hd, hcanonical⟩
    · exact ⟨c, by simp, t.symbols, hnew⟩
  | select | report | elsewhere => exact h

theorem recorded_of_steps {w : Intake} (h : Steps (initial cs limits t₀) w) : w.Recorded := by
  induction h with
  | refl =>
    intro form hform
    simp [initial, init] at hform
  | tail _ hstep ih => exact ih.step hstep

/-- Every search takes in clauses in this way. -/
theorem steady_intake (cs : List Clause) (limits : Limits) (t₀ : Session) :
    Steady fun σ s => Indexed s ∧ ∃ taken t, t.symbols = σ ∧
      Steps (initial cs limits t₀) ⟨taken, [], s, t⟩ where
  mono := by
    rintro σ τ s hle ⟨hindexed, taken, t, rfl, hsteps⟩
    exact ⟨hindexed, taken, { t with symbols := τ }, rfl, hsteps.tail (.elsewhere hle)⟩
  heard := by
    rintro σ s rest ⟨hindexed, taken, t, ht, hsteps⟩ hrest
    refine ⟨?_, taken, t, ht, hsteps.tail (.report hrest)⟩
    exact ⟨hindexed.weighed, hindexed.distinct, hindexed.passive, hindexed.listed⟩
  select := by
    rintro s s' t ⟨hindexed, taken, t₁, ht, hsteps⟩ hselect
    obtain ⟨id, hid, hpick, rfl, hsession⟩ := exists_of_select hindexed hselect
    have hindexed' : Indexed (copied id s t).1.2 := by
      obtain ⟨hweighed, hdistinct, hpassive, hlisted⟩ := hindexed.moved hid
      exact ⟨hweighed, hdistinct, hpassive, hlisted⟩
    refine ⟨hindexed'.insertAll _ _, taken ++ harvest id s t, _, (congrArg _ hsession).symm, ?_⟩
    exact ((hsteps.tail (.elsewhere (le_of_eq ht))).tail (.select hpick)).trans
      (steps_insertAll _ _ _ _)

theorem exists_steps {s : Saturation} {t : Session}
    (h : Saturation.Steps (start cs limits t₀) (s, t)) :
    ∃ taken, Steps (initial cs limits t₀) ⟨taken, [], s, t⟩ := by
  have hstart : Indexed (start cs limits t₀).1 ∧
      ∃ taken t, t.symbols = (start cs limits t₀).2.symbols ∧
        Steps (initial cs limits t₀) ⟨taken, [], (start cs limits t₀).1, t⟩ :=
    ⟨(Indexed.init limits).insertAll cs t₀, cs, _, rfl, steps_insertAll [] cs (init limits) t₀⟩
  obtain ⟨-, taken, t₁, ht, hsteps⟩ := (steady_intake cs limits t₀).steps h hstart
  exact ⟨taken, hsteps.tail (.elsewhere (le_of_eq ht))⟩

end Intake

/-- Clauses with one canonical form differ only in the names of their variables. So of a
clause that waits in a search and whose form was looked at, a variant was taken in before;
every search takes in its clauses one by one. -/
theorem alphaVariant_of_duplicate :
    (∀ (c d : Clause) (σ τ : Symbols),
      (c.canonical σ).1 = (d.canonical τ).1 → c.AlphaVariant d) ∧
    ∀ (cs : List Clause) (limits : Limits) (t₀ : Session),
      (∀ s t, Steps (start cs limits t₀) (s, t) →
        ∃ taken, Intake.Steps (.initial cs limits t₀) ⟨taken, [], s, t⟩) ∧
      ∀ taken c waiting s t, Intake.Steps (.initial cs limits t₀) ⟨taken, c :: waiting, s, t⟩ →
        s.seen.contains (c.canonical t.symbols).1 = true → ∃ d ∈ taken, d.AlphaVariant c := by
  refine ⟨fun c d σ τ => Clause.alphaVariant_of_canonical_eq, fun cs limits t₀ => ?_⟩
  refine ⟨fun s t => Intake.exists_steps, fun taken c waiting s t hsteps hseen => ?_⟩
  obtain ⟨d, hd, σ, hform⟩ :=
    Intake.recorded_of_steps hsteps _ (Std.TreeSet.mem_iff_contains.mpr hseen)
  exact ⟨d, hd, Clause.alphaVariant_of_canonical_eq hform⟩

/-- `{P(x, y), x = y}`, where the first names are `P`, `x`, `y`, `$v1` and `$v2`. -/
def lettered : Clause :=
  ⟨[⟨.rel ⟨0⟩ [.var ⟨1⟩, .var ⟨2⟩], false⟩, ⟨.eq (.var ⟨1⟩) (.var ⟨2⟩), false⟩]⟩

/-- `{P($v2, $v1), $v1 = $v2}`, which has the names of canonical forms in another order. -/
def numbered : Clause :=
  ⟨[⟨.rel ⟨0⟩ [.var ⟨4⟩, .var ⟨3⟩], false⟩, ⟨.eq (.var ⟨3⟩) (.var ⟨4⟩), false⟩]⟩

def numberedSession : Session := .knowing ["P", "x", "y", "$v1", "$v2"]

/-- The search after the first of the two clauses was taken in. -/
def numberedSearch : Saturation × Session :=
  insert lettered (init ⟨none, none⟩) numberedSession

theorem alphaVariant_of_duplicate_numbered :
    Intake.Steps (.initial [lettered, numbered] ⟨none, none⟩ numberedSession)
      ⟨[lettered], [numbered], numberedSearch.1, numberedSearch.2⟩ ∧
    numberedSearch.1.seen.contains (numbered.canonical numberedSearch.2.symbols).1 = true ∧
    lettered.AlphaVariant numbered := by
  have hsteps : Intake.Steps (.initial [lettered, numbered] ⟨none, none⟩ numberedSession)
      ⟨[lettered], [numbered], numberedSearch.1, numberedSearch.2⟩ := .single .take
  have hseen : numberedSearch.1.seen.contains
      (numbered.canonical numberedSearch.2.symbols).1 = true := by decide +kernel
  obtain ⟨d, hd, hvariant⟩ := (alphaVariant_of_duplicate.2 _ _ _).2 _ _ _ _ _ hsteps hseen
  obtain rfl := List.mem_singleton.mp hd
  exact ⟨hsteps, hseen, hvariant⟩

end Saturation

end Entailment
