import Entailment.Proofs.Saturation
import Entailment.Proofs.Subsumption

/-! Renaming of variables. A clause and a copy of it under an injective renaming
are instances of each other, so they have the same size and are covered by the
same clauses. Canonical forms and copies with fresh variables are of this kind. -/
namespace Entailment

/-- The name that an association list gives to a variable, if any. -/
abbrev renamedBy (names : List (Symbol × Symbol)) (x : Symbol) : Symbol := (names.lookup x).getD x

theorem exists_lookup {names : List (Symbol × Symbol)} {x : Symbol} (h : x ∈ names.map Prod.fst) :
    ∃ y, names.lookup x = some y := by
  induction names with
  | nil => cases h
  | cons p names ih =>
    obtain ⟨z, y⟩ := p
    rw [Symbol.lookup_cons]
    split
    · exact ⟨y, rfl⟩
    · rename_i hne
      exact ih ((List.mem_cons.mp h).resolve_left hne)

theorem renamedBy_mem {names : List (Symbol × Symbol)} {x : Symbol}
    (h : x ∈ names.map Prod.fst) : (x, renamedBy names x) ∈ names := by
  obtain ⟨y, hy⟩ := exists_lookup h
  rw [renamedBy, hy, Option.getD_some]
  exact Symbol.mem_of_lookup hy

theorem renamedBy_injOn {names : List (Symbol × Symbol)} (h : (names.map Prod.snd).Nodup) :
    Set.InjOn (renamedBy names) {x | x ∈ names.map Prod.fst} := by
  intro x hx x' hx' heq
  have hpair := renamedBy_mem hx
  have hpair' := renamedBy_mem hx'
  rw [← heq] at hpair'
  exact congrArg Prod.fst (List.inj_on_of_nodup_map h hpair hpair' rfl)

namespace Clause

variable {c e : Clause} {ρ : Symbol → Symbol}

/-- The renaming keeps the variables of the clause apart. -/
def KeepsApart (ρ : Symbol → Symbol) (c : Clause) : Prop := Set.InjOn ρ {x | x ∈ c.vars}

theorem normal_rename (ρ : Symbol → Symbol) (c : Clause) : (c.rename ρ).Normal := normal_mapTerms _ c

theorem KeepsApart.exists_back (h : c.KeepsApart ρ) :
    ∃ back : Symbol → Symbol, ∀ x ∈ c.vars, back (ρ x) = x :=
  ⟨Function.invFunOn ρ {x | x ∈ c.vars}, fun _ hx => h.leftInvOn_invFunOn hx⟩

theorem exists_under_rename (hc : c.Normal) (h : c.KeepsApart ρ) :
    ∃ η : Symbol → Term, (c.rename ρ).under η = c := by
  obtain ⟨back, hback⟩ := h.exists_back
  refine ⟨fun y => .var (back y), ?_⟩
  refine (under_under c _ _).trans (under_eq_self hc fun x hx => ?_)
  exact congrArg Term.var (hback x hx)

theorem size_rename (hc : c.Normal) (h : c.KeepsApart ρ) : (c.rename ρ).size = c.size := by
  obtain ⟨η, hη⟩ := exists_under_rename hc h
  refine Nat.le_antisymm (size_under_le hc _) ?_
  have hle := size_under_le (normal_rename ρ c) η
  rwa [hη] at hle

theorem covers_rename_iff (hc : c.Normal) (h : c.KeepsApart ρ) :
    e.Covers (c.rename ρ) ↔ e.Covers c := by
  have hsize := size_rename hc h
  constructor
  · intro he
    obtain ⟨η, hη⟩ := exists_under_rename hc h
    rw [← hη]
    exact he.under (by rw [hη, hsize])
  · exact fun he => he.under (Nat.le_of_eq hsize.symm)

theorem rename_covers (hc : c.Normal) (h : c.KeepsApart ρ) : (c.rename ρ).Covers c := by
  obtain ⟨η, hη⟩ := exists_under_rename hc h
  refine ⟨Nat.le_of_eq (size_rename hc h), η, fun l hl => ?_⟩
  rw [← hη]
  exact under_mem_under hl

theorem mem_vars_rename {y : Symbol} : y ∈ (c.rename ρ).vars ↔ ∃ x ∈ c.vars, ρ x = y := by
  refine mem_vars_under.trans (exists_congr fun x => and_congr_right fun _ => ?_)
  rw [Term.hasVar_var]
  exact eq_comm

end Clause

theorem mem_insertSorted {α : Type} {before : α → α → Bool} {a b : α} {l : List α} :
    b ∈ insertSorted before a l ↔ b = a ∨ b ∈ l := by
  induction l with
  | nil => simp [insertSorted]
  | cons x xs ih =>
    rw [insertSorted]
    split
    · simp only [List.mem_cons, ih]
      exact or_left_comm
    · simp only [List.mem_cons]

theorem mem_sortBy {α : Type} {before : α → α → Bool} {b : α} {l : List α} :
    b ∈ sortBy before l ↔ b ∈ l := by
  unfold sortBy
  induction l with
  | nil => simp
  | cons x xs ih => simp only [List.foldr_cons, mem_insertSorted, ih, List.mem_cons]

theorem Symbols.internAll_cons (name : String) (names : List String) (σ : Symbols) :
    internAll (name :: names) σ =
      ((intern name σ).1 :: (internAll names (intern name σ).2).1,
        (internAll names (intern name σ).2).2) := by
  unfold internAll
  rw [List.mapM_cons]
  rfl

/-- Interned names and their symbols correspond one to one. -/
theorem Symbols.nodup_internAll {names : List String} (h : names.Nodup) (σ : Symbols) :
    (internAll names σ).1.length = names.length ∧ (internAll names σ).1.Nodup ∧
      ∀ s ∈ (internAll names σ).1, ∃ name ∈ names,
        (internAll names σ).2.names[s.id]? = some name := by
  induction names generalizing σ with
  | nil => exact ⟨rfl, List.nodup_nil, nofun⟩
  | cons name names ih =>
    obtain ⟨hnew, hnames⟩ := List.nodup_cons.mp h
    obtain ⟨hlen, hnodup, hall⟩ := ih hnames (intern name σ).2
    have hhead : (internAll names (intern name σ).2).2.names[(intern name σ).1.id]? = some name :=
      le_internAll names _ _ _ (names_intern name σ)
    rw [internAll_cons]
    refine ⟨congrArg Nat.succ hlen, List.nodup_cons.mpr ⟨fun hmem => ?_, hnodup⟩, fun s hs => ?_⟩
    · obtain ⟨other, hother, hs⟩ := hall _ hmem
      rw [hhead] at hs
      exact hnew (Option.some.inj hs ▸ hother)
    · rcases List.mem_cons.mp hs with rfl | hs
      · exact ⟨name, List.mem_cons_self, hhead⟩
      · obtain ⟨other, hother, hs⟩ := hall s hs
        exact ⟨other, List.mem_cons_of_mem name hother, hs⟩

namespace Clause

theorem mem_byShape {ls : List Literal} {σ : Symbols} {l : Literal} :
    l ∈ (byShape ls σ).1 ↔ l ∈ ls := by
  match ls with
  | [] | [_] => rfl
  | k :: m :: ls =>
    change l ∈ (sortBy _ ((k :: m :: ls).map _)).map Prod.snd ↔ _
    rw [List.mem_map]
    simp only [mem_sortBy, List.mem_map]
    constructor
    · rintro ⟨_, ⟨n, hn, rfl⟩, rfl⟩
      exact hn
    · exact fun hl => ⟨_, ⟨l, hl, rfl⟩, rfl⟩

/-- The canonical form is a copy of the clause. -/
theorem exists_canonical_eq_rename (c : Clause) (σ : Symbols) :
    ∃ ρ, c.KeepsApart ρ ∧ (c.canonical σ).1 = c.rename ρ := by
  let ls := byShape c.literals σ
  let xs := Term.varsOf (ls.1.flatMap Literal.terms)
  let labels := (List.range' 1 xs.length).map fun n => "$v" ++ toString n
  let ys := Symbols.internAll labels ls.2
  have hlabels : labels.Nodup :=
    List.Nodup.map (Symbols.append_toString_injective "$v") List.nodup_range'
  obtain ⟨hlen, hnodup, -⟩ := Symbols.nodup_internAll hlabels ls.2
  have hlen : ys.1.length = xs.length := by
    rw [hlen, List.length_map, List.length_range']
  refine ⟨renamedBy (xs.zip ys.1), ?_, ?_⟩
  · have hsnd : ((xs.zip ys.1).map Prod.snd).Nodup := by
      rwa [List.map_snd_zip (by omega)]
    have hinj := renamedBy_injOn hsnd
    rw [List.map_fst_zip (by omega)] at hinj
    refine hinj.mono fun x hx => ?_
    simp only [Set.mem_ofPred_eq, vars, Term.mem_varsOf, List.mem_flatMap, xs, ls, mem_byShape] at hx ⊢
    exact hx
  · change ofList (ls.1.map _) = ofList (c.literals.map _)
    refine ofList_congr fun l => ?_
    simp only [List.mem_map, ls, mem_byShape]
    rfl

/-- The renaming gives the variables of the clause new names, all different. -/
structure Renews (ρ : Symbol → Symbol) (c : Clause) : Prop where
  keepsApart : c.KeepsApart ρ
  new : ∀ x ∈ c.vars, ρ x ∉ c.vars

/-- A copy of the clause that shares no variable with it. -/
def Copy (c d : Clause) : Prop := ∃ ρ, c.Renews ρ ∧ d = c.rename ρ

end Clause

namespace Saturation

variable {xs : List Symbol} {counter : UInt32} {σ : Symbols}

theorem freshNames_cons (x : Symbol) (xs : List Symbol) (counter : UInt32) (σ : Symbols) :
    freshNames (x :: xs) counter σ =
      let y := Symbols.freshLike x counter σ
      let rest := freshNames xs y.1.2 y.2
      (((x, y.1.1) :: rest.1.1, rest.1.2), rest.2) := rfl

theorem fst_freshNames (xs : List Symbol) (counter : UInt32) (σ : Symbols) :
    (freshNames xs counter σ).1.1.map Prod.fst = xs := by
  induction xs generalizing counter σ with
  | nil => rfl
  | cons x xs ih => simp [freshNames_cons, ih]

/-- New names are made one after the other, each of them unknown before. -/
theorem snd_freshNames (h : xs = [] ∨ (freshNames xs counter σ).2.size < UInt32.size) :
    ((freshNames xs counter σ).1.1.map Prod.snd).Nodup ∧
      ∀ y ∈ (freshNames xs counter σ).1.1.map Prod.snd,
        ¬ σ.Knows y ∧ (freshNames xs counter σ).2.Knows y := by
  induction xs generalizing counter σ with
  | nil => exact ⟨List.nodup_nil, nofun⟩
  | cons x xs ih =>
    have hsize := h.resolve_left (by simp)
    rw [freshNames_cons] at hsize ⊢
    dsimp only [Symbols.freshLike] at hsize ⊢
    have hle := le_freshNames xs
      (Symbols.fresh (baseName (σ.name x) ++ "_") counter σ).1.2
      (Symbols.fresh (baseName (σ.name x) ++ "_") counter σ).2
    have hfresh := Symbols.le_fresh (baseName (σ.name x) ++ "_") counter σ
    have hknows := Symbols.knows_fresh (baseName (σ.name x) ++ "_") counter σ
    have hroom : σ.size < UInt32.size :=
      ((Symbols.size_le hfresh).trans (Symbols.size_le hle)).trans_lt hsize
    obtain ⟨hnodup, hnew⟩ := ih (.inr hsize)
    rw [List.map_cons, List.nodup_cons]
    refine ⟨⟨fun hmem => (hnew _ hmem).1 hknows, hnodup⟩, fun y hy => ?_⟩
    rcases List.mem_cons.mp hy with rfl | hy
    · exact ⟨Symbols.not_knows_fresh hroom _ counter, hknows.mono hle⟩
    · exact ⟨fun hknown => (hnew y hy).1 (hknown.mono hfresh), (hnew y hy).2⟩

variable {c : Clause}

/-- Renaming with new names keeps variables apart and away from all known names. -/
theorem renamedBy_freshNames
    (h : c.vars = [] ∨ (freshNames c.vars counter σ).2.size < UInt32.size) :
    c.KeepsApart (renamedBy (freshNames c.vars counter σ).1.1) ∧
      ∀ x ∈ c.vars, ¬ σ.Knows (renamedBy (freshNames c.vars counter σ).1.1 x) ∧
        (freshNames c.vars counter σ).2.Knows (renamedBy (freshNames c.vars counter σ).1.1 x) := by
  obtain ⟨hnodup, hnew⟩ := snd_freshNames h
  have hkeys := fst_freshNames c.vars counter σ
  constructor
  · have hinj := renamedBy_injOn hnodup
    rwa [hkeys] at hinj
  · intro x hx
    rw [← hkeys] at hx
    exact hnew _ (List.mem_map_of_mem (f := Prod.snd) (renamedBy_mem hx))

end Saturation

end Entailment
