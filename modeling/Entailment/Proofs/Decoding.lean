import Entailment.StateFile
import Entailment.Proofs.Restoration
import Entailment.Proofs.Timestamp

/-! Values are read back from the JSON that is written for them. Names are interned on
the way, so that what is read depends on the table in which it is read; but it is
what the names stand for in any later table. A value nested deeper than a reader may
go is refused. -/
namespace Entailment

namespace Decoding

variable {α β γ : Type}

/-- Reading succeeds in any table, and keeps the names of the table. Afterwards the given
names are in the table, and what was read is `value` with the symbols that names
have in the table, and in all later ones. -/
structure Reads (x : Decoding α) (names : List String) (value : (String → Symbol) → α) : Prop where
  le : ∀ τ : Symbols, τ ≤ (x.run τ).2
  known : ∀ (τ : Symbols), ∀ name ∈ names, (x.run τ).2.contains name = true
  value : ∀ τ υ : Symbols, (x.run τ).2 ≤ υ → (x.run τ).1 = some (value υ.find)

/-- Reading fails in any table. -/
def Fails (x : Decoding α) : Prop := ∀ τ : Symbols, (x.run τ).1 = none

theorem reads_pure (a : α) : Reads (pure a) [] fun _ => a :=
  ⟨fun τ => le_refl τ, fun _ _ h => absurd h List.not_mem_nil, fun _ _ _ => rfl⟩

theorem run_bind (x : Decoding α) (f : α → Decoding β) (τ : Symbols) :
    (x >>= f).run τ = (x.run τ).1.elim (none, (x.run τ).2) fun a => (f a).run (x.run τ).2 := by
  rw [OptionT.run_bind, Option.elimM]
  change ((x.run τ).1.elim (pure none) fun a => (f a).run) (x.run τ).2 = _
  cases (x.run τ).1 <;> rfl

theorem Reads.bind {x : Decoding α} {f : α → Decoding β} {names names' : List String}
    {value : (String → Symbol) → α} {value' : α → (String → Symbol) → β} (hx : Reads x names value)
    (hf : ∀ a, Reads (f a) names' (value' a)) :
    Reads (x >>= f) (names ++ names') fun find => value' (value find) find := by
  have hrun (τ : Symbols) : (x >>= f).run τ =
      (f (value (x.run τ).2.find)).run (x.run τ).2 := by
    rw [run_bind, hx.value τ _ le_rfl, Option.elim_some]
  refine ⟨fun τ => ?_, fun τ name hname => ?_, fun τ υ hυ => ?_⟩
  · rw [hrun]
    exact (hx.le τ).trans ((hf _).le _)
  · rw [hrun]
    rcases List.mem_append.mp hname with h | h
    · exact Symbols.contains_mono ((hf _).le _) (hx.known τ name h)
    · exact (hf _).known _ name h
  · rw [hrun] at hυ ⊢
    have hlater : value υ.find = value (x.run τ).2.find := Option.some.inj
      ((hx.value τ υ (((hf _).le _).trans hυ)).symm.trans (hx.value τ _ le_rfl))
    rw [(hf _).value _ υ hυ, hlater]

theorem Reads.map {x : Decoding α} {names : List String} {value : (String → Symbol) → α}
    (hx : Reads x names value) (g : α → β) : Reads (g <$> x) names fun find => g (value find) := by
  have h := hx.bind fun a => reads_pure (g a)
  rwa [List.append_nil, bind_pure_comp] at h

theorem Fails.bind {x : Decoding α} (h : Fails x) (f : α → Decoding β) : Fails (x >>= f) := by
  intro τ
  rw [run_bind, h τ, Option.elim_none]

theorem Fails.map {x : Decoding α} (h : Fails x) (g : α → β) : Fails (g <$> x) := by
  rw [← bind_pure_comp]
  exact h.bind _

theorem fails_bind (x : Decoding α) {f : α → Decoding β} (h : ∀ a, Fails (f a)) :
    Fails (x >>= f) := by
  intro τ
  rw [run_bind]
  cases (x.run τ).1 with
  | none => rfl
  | some a => exact h a _

theorem reads_mapM {read : Json → Decoding α} {encode : β → Json} {names : β → List String}
    {value : β → (String → Symbol) → α} {bs : List β}
    (h : ∀ b ∈ bs, Reads (read (encode b)) (names b) (value b)) :
    Reads ((bs.map encode).mapM read) (bs.flatMap names) fun find =>
      bs.map fun b => value b find := by
  induction bs with
  | nil => exact reads_pure []
  | cons b bs ih =>
    rw [List.forall_mem_cons] at h
    rw [List.map_cons, List.mapM_cons, List.flatMap_cons]
    have hrest := fun a => (ih h.2).bind fun as => reads_pure (a :: as)
    simp only [List.append_nil] at hrest
    exact h.1.bind hrest

theorem fails_mapM {read : Json → Decoding α} {items : List Json} {j : Json} (hj : j ∈ items)
    (h : Fails (read j)) : Fails (items.mapM read) := by
  induction items with
  | nil => cases hj
  | cons item items ih =>
    rw [List.mapM_cons]
    rcases List.mem_cons.mp hj with rfl | hj
    · exact h.bind _
    · exact fails_bind _ fun a => (ih hj).bind _

theorem reads_symbol (name : String) :
    Reads (Json.ofString name).symbol [name] fun find => find name where
  le τ := Symbols.le_intern name τ
  known τ _ h := List.mem_singleton.mp h ▸ Symbols.contains_intern name τ
  value _ _ hυ := congrArg some (Symbols.find_intern hυ).symm

theorem pair_eq (first : Json → Decoding α) (second : Json → Decoding β) (a b : Json) :
    Json.pair first second (.array [a, b]) =
      first a >>= fun a => second b >>= fun b => pure (a, b) :=
  rfl

theorem Reads.pair {f : Json → Decoding α} {g : Json → Decoding β} {a b : Json}
    {names names' : List String} {value : (String → Symbol) → α} {value' : (String → Symbol) → β}
    (ha : Reads (f a) names value) (hb : Reads (g b) names' value') :
    Reads (Json.pair f g (.array [a, b])) (names ++ names') fun find =>
      (value find, value' find) := by
  have hrest (x : α) : Reads (g b >>= fun b => pure (x, b)) names' fun find =>
      (x, value' find) := by
    have h := hb.bind fun y => reads_pure (x, y)
    rwa [List.append_nil] at h
  rw [pair_eq]
  exact ha.bind hrest

theorem fails_pair {f : Json → Decoding α} {g : Json → Decoding β} {a b : Json}
    (h : Fails (f a) ∨ Fails (g b)) : Fails (Json.pair f g (.array [a, b])) := by
  rw [pair_eq]
  rcases h with h | h
  · exact h.bind _
  · exact fails_bind _ fun _ => h.bind _

end Decoding

open Decoding

namespace Json

theorem lt_depthOfItems {d : Nat} {items : List Json} :
    d < depthOfItems items ↔ ∃ j ∈ items, d < j.depth := by
  induction items with
  | nil => simp [depthOfItems]
  | cons item items ih => simp [depthOfItems, ih]

@[simp] theorem depth_ofString (s : String) : (ofString s).depth = 0 := rfl

@[simp] theorem depth_array (items : List Json) : (array items).depth = depthOfItems items + 1 := by
  rw [depth]

@[simp] theorem depthOfItems_pair (a b : Json) : depthOfItems [a, b] = max a.depth b.depth := by
  simp [depthOfItems]

@[simp] theorem depth_field (name : String) (j : Json) :
    (ofFields [(name, j)]).depth = j.depth + 1 := by
  simp [ofFields, depth, depthOfFields]

@[simp] theorem depth_fields (name name' : String) (j j' : Json) :
    (ofFields [(name, j), (name', j')]).depth = max j.depth j'.depth + 1 := by
  simp [ofFields, depth, depthOfFields]

end Json

section Decodes

variable {α β γ : Type}

/-- A reader that may go to a given depth takes the value for what is meant if it is
not nested deeper, and refuses it otherwise. -/
structure Decodes (read : Nat → Json → Decoding α) (j : Json) (names : List String)
    (value : (String → Symbol) → α) : Prop where
  reads : ∀ d, j.depth ≤ d → Reads (read d j) names value
  fails : ∀ d, d < j.depth → Fails (read d j)

theorem decodes_symbol (name : String) :
    Decodes (fun _ => Json.symbol) (.ofString name) [name] fun find => find name :=
  ⟨fun _ _ => reads_symbol name, fun _ h => absurd h (Nat.not_lt_zero _)⟩

/-- A single part with one more bracket around it. -/
theorem Decodes.wrap {inner : Nat → Json → Decoding α} {read : Nat → Json → Decoding β}
    {j j' : Json} {names : List String} {value : (String → Symbol) → α}
    (h : Decodes inner j names value) (make : α → β) (hdepth : j'.depth = j.depth + 1)
    (hzero : Fails (read 0 j')) (hread : ∀ d, read (d + 1) j' = make <$> inner d j) :
    Decodes read j' names fun find => make (value find) := by
  constructor
  · intro d hd
    rw [hdepth] at hd
    obtain ⟨d, rfl⟩ := Nat.exists_eq_add_of_le' ((Nat.le_add_left 1 _).trans hd)
    rw [hread]
    exact (h.reads d (Nat.le_of_add_le_add_right hd)).map make
  · intro d hd
    rw [hdepth] at hd
    cases d with
    | zero => exact hzero
    | succ d =>
      rw [hread]
      exact (h.fails d (Nat.lt_of_add_lt_add_right hd)).map make

/-- Two parts under a name. -/
theorem decodes_pair {read : Nat → Json → Decoding γ} {first : Nat → Json → Decoding α}
    {second : Nat → Json → Decoding β} (make : α → β → γ) {name : String} {a b : Json}
    {names names' : List String} {value : (String → Symbol) → α} {value' : (String → Symbol) → β}
    (hread : ∀ d, read (d + 2) (.ofFields [(name, .array [a, b])]) =
      (fun p => make p.1 p.2) <$> Json.pair (first d) (second d) (.array [a, b]))
    (hzero : Fails (read 0 (.ofFields [(name, .array [a, b])])))
    (hone : Fails (read 1 (.ofFields [(name, .array [a, b])])))
    (ha : Decodes first a names value) (hb : Decodes second b names' value') :
    Decodes read (.ofFields [(name, .array [a, b])]) (names ++ names') fun find =>
      make (value find) (value' find) := by
  have hdepth : (Json.ofFields [(name, .array [a, b])]).depth = max a.depth b.depth + 2 := by simp
  constructor
  · intro d hd
    rw [hdepth] at hd
    obtain ⟨d, rfl⟩ := Nat.exists_eq_add_of_le' ((Nat.le_add_left 2 _).trans hd)
    have hmax := Nat.max_le.mp (Nat.le_of_add_le_add_right hd)
    rw [hread]
    exact ((ha.reads d hmax.1).pair (hb.reads d hmax.2)).map fun p => make p.1 p.2
  · intro d hd
    rw [hdepth] at hd
    match d with
    | 0 => exact hzero
    | 1 => exact hone
    | d + 2 =>
      have hmax := lt_max_iff.mp (Nat.lt_of_add_lt_add_right hd)
      rw [hread]
      exact (fails_pair (hmax.imp (ha.fails d) (hb.fails d))).map _

/-- The items of an array. -/
theorem decodes_items {read : Nat → Json → Decoding α} {encode : β → Json}
    {names : β → List String} {value : β → (String → Symbol) → α} {bs : List β}
    (h : ∀ b ∈ bs, Decodes read (encode b) (names b) (value b)) (d : Nat) :
    (Json.depthOfItems (bs.map encode) ≤ d → Reads ((bs.map encode).mapM (read d))
      (bs.flatMap names) fun find => bs.map fun b => value b find) ∧
    (d < Json.depthOfItems (bs.map encode) → Fails ((bs.map encode).mapM (read d))) := by
  constructor
  · intro hd
    refine reads_mapM fun b hb => (h b hb).reads d ?_
    by_contra hlt
    exact Nat.not_lt.mpr hd (Json.lt_depthOfItems.mpr
      ⟨_, List.mem_map_of_mem hb, Nat.lt_of_not_le hlt⟩)
  · intro hd
    obtain ⟨j, hj, hlt⟩ := Json.lt_depthOfItems.mp hd
    obtain ⟨b, hb, rfl⟩ := List.mem_map.mp hj
    exact fails_mapM hj ((h b hb).fails d hlt)

end Decodes

namespace Term

theorem toJsonAll_eq (σ : Symbols) (ts : List Term) : toJsonAll σ ts = ts.map (toJson σ) := by
  induction ts with
  | nil => rfl
  | cons t ts ih => rw [toJsonAll, ih, List.map_cons]

theorem map_symbolsAll (g : Symbol → String) (ts : List Term) :
    (symbolsAll ts).map g = ts.flatMap fun t => t.symbols.map g := by
  induction ts with
  | nil => rfl
  | cons t ts ih => rw [symbolsAll, List.map_append, ih, List.flatMap_cons]

/-- A list of terms, given how each of them is read. -/
theorem decodes_list {σ : Symbols} {ts : List Term}
    (h : ∀ t ∈ ts, Decodes ofJson (t.toJson σ) (t.symbols.map σ.name) fun find =>
      t.relabel fun a => find (σ.name a)) :
    Decodes allOfJson (.array (toJsonAll σ ts)) ((symbolsAll ts).map σ.name) fun find =>
      ts.map (relabel fun a => find (σ.name a)) := by
  rw [toJsonAll_eq, map_symbolsAll]
  constructor
  · intro d hd
    rw [Json.depth_array] at hd
    obtain ⟨d, rfl⟩ := Nat.exists_eq_add_of_le' ((Nat.le_add_left 1 _).trans hd)
    exact (decodes_items h d).1 (Nat.le_of_add_le_add_right hd)
  · intro d hd
    rw [Json.depth_array] at hd
    cases d with
    | zero => exact fun τ => rfl
    | succ d => exact (decodes_items h d).2 (Nat.lt_of_add_lt_add_right hd)

theorem decodes_ofJson (σ : Symbols) (t : Term) :
    Decodes ofJson (t.toJson σ) (t.symbols.map σ.name) fun find =>
      t.relabel fun a => find (σ.name a) := by
  induction t using rec_args with
  | var x =>
    exact (decodes_symbol _).wrap Term.var (Json.depth_field _ _) (fun τ => rfl) fun d => rfl
  | const c =>
    exact (decodes_symbol _).wrap Term.const (Json.depth_field _ _) (fun τ => rfl) fun d => rfl
  | app f args ih =>
    have hargs := decodes_list ih
    have hdepth : ((app f args).toJson σ).depth = (Json.array (toJsonAll σ args)).depth + 2 := by
      simp [toJson]
    refine ⟨fun d hd => ?_, fun d hd => ?_⟩
    · rw [hdepth] at hd
      match d with
      | 0 | 1 | 2 => simp at hd
      | d + 3 =>
        have hlist : Reads (listOfJson (ofJson d) (.array (toJsonAll σ args))) _ _ :=
          hargs.reads (d + 1) (by omega)
        simp only [relabel_app]
        exact ((reads_symbol (σ.name f)).pair hlist).map fun p => Term.app p.1 p.2
    · rw [hdepth] at hd
      match d with
      | 0 | 1 | 2 => exact fun τ => rfl
      | d + 3 =>
        have hlist : Fails (listOfJson (ofJson d) (.array (toJsonAll σ args))) :=
          hargs.fails (d + 1) (by omega)
        exact (fails_pair (.inr hlist)).map fun p => Term.app p.1 p.2

end Term

namespace Formula

theorem ofJson_connective {name : String} {c : Formula → Formula → Formula}
    (h : connective? name = some c) (d : Nat) (parts : Json) :
    ofJson (d + 2) (.ofFields [(name, parts)]) =
      (fun p => c p.1 p.2) <$> parts.pair (ofJson d) (ofJson d) := by
  unfold connective? at h
  split at h <;> cases h <;> rfl

theorem ofJson_quantifier {name : String} {q : Symbol → Formula → Formula}
    (h : quantifier? name = some q) (d : Nat) (parts : Json) :
    ofJson (d + 2) (.ofFields [(name, parts)]) =
      (fun p => q p.1 p.2) <$> parts.pair Json.symbol (ofJson d) := by
  unfold quantifier? at h
  split at h <;> cases h <;> rfl

theorem ofJson_not (d : Nat) (j : Json) :
    ofJson (d + 1) (.ofFields [("Not", j)]) = Formula.not <$> ofJson d j := by
  cases d <;> rfl

/-- A connective takes two brackets. -/
theorem fails_connective {name : String} {c : Formula → Formula → Formula}
    (h : connective? name = some c) (parts : Json) :
    Fails (ofJson 0 (.ofFields [(name, parts)])) ∧
      Fails (ofJson 1 (.ofFields [(name, parts)])) := by
  unfold connective? at h
  split at h <;> cases h <;> exact ⟨fun τ => rfl, fun τ => rfl⟩

theorem fails_quantifier {name : String} {q : Symbol → Formula → Formula}
    (h : quantifier? name = some q) (parts : Json) :
    Fails (ofJson 0 (.ofFields [(name, parts)])) ∧
      Fails (ofJson 1 (.ofFields [(name, parts)])) := by
  unfold quantifier? at h
  split at h <;> cases h <;> exact ⟨fun τ => rfl, fun τ => rfl⟩

theorem decodes_connective {name : String} (c : Formula → Formula → Formula)
    (h : connective? name = some c) {σ : Symbols} {f g : Formula}
    (hf : Decodes ofJson (f.toJson σ) (f.symbols.map σ.name) fun find =>
      f.relabel fun a => find (σ.name a))
    (hg : Decodes ofJson (g.toJson σ) (g.symbols.map σ.name) fun find =>
      g.relabel fun a => find (σ.name a)) :
    Decodes ofJson (.ofFields [(name, .array [f.toJson σ, g.toJson σ])])
      ((f.symbols ++ g.symbols).map σ.name) fun find =>
        c (f.relabel fun a => find (σ.name a)) (g.relabel fun a => find (σ.name a)) := by
  rw [List.map_append]
  exact decodes_pair c (fun d => ofJson_connective h d _) (fails_connective h _).1
    (fails_connective h _).2 hf hg

theorem decodes_quantifier {name : String} (q : Symbol → Formula → Formula)
    (h : quantifier? name = some q) {σ : Symbols} (x : Symbol) {f : Formula}
    (hf : Decodes ofJson (f.toJson σ) (f.symbols.map σ.name) fun find =>
      f.relabel fun a => find (σ.name a)) :
    Decodes ofJson (.ofFields [(name, .array [.ofString (σ.name x), f.toJson σ])])
      ((x :: f.symbols).map σ.name) fun find =>
        q (find (σ.name x)) (f.relabel fun a => find (σ.name a)) :=
  decodes_pair q (fun d => ofJson_quantifier h d _) (fails_quantifier h _).1
    (fails_quantifier h _).2 (decodes_symbol _) hf

theorem decodes_ofJson (σ : Symbols) (f : Formula) :
    Decodes ofJson (f.toJson σ) (f.symbols.map σ.name) fun find =>
      f.relabel fun a => find (σ.name a) := by
  induction f with
  | rel r args =>
    exact decodes_pair Formula.rel (fun d => rfl) (fun τ => rfl) (fun τ => rfl)
      (decodes_symbol _) (Term.decodes_list fun t _ => Term.decodes_ofJson σ t)
  | eq t u =>
    rw [symbols, List.map_append]
    exact decodes_pair Formula.eq (fun d => rfl) (fun τ => rfl) (fun τ => rfl)
      (Term.decodes_ofJson σ t) (Term.decodes_ofJson σ u)
  | not f ih =>
    exact ih.wrap Formula.not (Json.depth_field _ _) (fun τ => rfl) fun d => ofJson_not d _
  | and f g ihf ihg => exact decodes_connective .and rfl ihf ihg
  | or f g ihf ihg => exact decodes_connective .or rfl ihf ihg
  | imp f g ihf ihg => exact decodes_connective .imp rfl ihf ihg
  | iff f g ihf ihg => exact decodes_connective .iff rfl ihf ihg
  | all x f ih => exact decodes_quantifier .all rfl x ih
  | ex x f ih => exact decodes_quantifier .ex rfl x ih

end Formula

theorem Json.parts_two {name name' : String} (h : name ≠ name') (j j' : Json) :
    (Json.ofFields [(name, j), (name', j')]).parts [name, name'] = some [j, j'] := by
  simp [Json.parts, Json.ofFields, Json.once, Json.atMostOnce, Json.valuesOf, h, h.symm]

namespace SnapshotEntry

theorem ofJson_toJson (σ : Symbols) (e : SnapshotEntry) (d : Nat) :
    ofJson (d + 1) (e.toJson σ) =
      SnapshotEntry.mk e.provenance <$> Formula.ofJson d (e.formula.toJson σ) := by
  have hprovenance : Provenance.ofJson? e.provenance.toJson = some e.provenance := by
    cases e.provenance <;> rfl
  rw [ofJson, toJson, Json.parts_two (by decide)]
  dsimp only
  rw [hprovenance]
  rfl

theorem decodes_ofJson (σ : Symbols) (e : SnapshotEntry) :
    Decodes ofJson (e.toJson σ) (e.formula.symbols.map σ.name) fun find =>
      ⟨e.provenance, e.formula.relabel fun a => find (σ.name a)⟩ := by
  have hdepth : (e.toJson σ).depth = (e.formula.toJson σ).depth + 1 := by
    simp [toJson, Provenance.toJson]
  exact (Formula.decodes_ofJson σ e.formula).wrap (SnapshotEntry.mk e.provenance) hdepth
    (fun τ => rfl) (ofJson_toJson σ e)

end SnapshotEntry

namespace Snapshot

/-- The names in the formulas of a snapshot. -/
def names (σ : Symbols) (s : Snapshot) : List String :=
  s.entries.flatMap fun e => e.formula.symbols.map σ.name

theorem ofJson_toJson (σ : Symbols) (s : Snapshot) (d : Nat) :
    ofJson (d + 2) (s.toJson σ) = (fun es => ⟨es, s.sealText⟩) <$>
      (s.entries.map (SnapshotEntry.toJson σ)).mapM (SnapshotEntry.ofJson d) := by
  rw [ofJson, toJson, Json.parts_two (by decide)]
  rfl

theorem decodes_ofJson (σ : Symbols) (s : Snapshot) :
    Decodes ofJson (s.toJson σ) (s.names σ) fun find => s.relabel fun a => find (σ.name a) := by
  have hentries := decodes_items fun e (_ : e ∈ s.entries) => SnapshotEntry.decodes_ofJson σ e
  have hdepth : (s.toJson σ).depth =
      Json.depthOfItems (s.entries.map (SnapshotEntry.toJson σ)) + 2 := by
    simp [toJson]
  refine ⟨fun d hd => ?_, fun d hd => ?_⟩
  · rw [hdepth] at hd
    obtain ⟨d, rfl⟩ := Nat.exists_eq_add_of_le' ((Nat.le_add_left 2 _).trans hd)
    rw [ofJson_toJson]
    exact ((hentries d).1 (Nat.le_of_add_le_add_right hd)).map _
  · rw [hdepth] at hd
    match d with
    | 0 | 1 => exact fun τ => rfl
    | d + 2 =>
      rw [ofJson_toJson]
      exact ((hentries d).2 (Nat.lt_of_add_lt_add_right hd)).map _

end Snapshot

namespace StateFile

theorem ofJson_toJson (σ : Symbols) {f : StateFile} (h : f.savedAt.isValid = true) (d : Nat) :
    ofJson (d + 1) (f.toJson σ) =
      StateFile.mk f.savedAt <$> Snapshot.ofJson d (f.snapshot.toJson σ) := by
  have htext : (Json.ofString f.savedAt.render).text? = some f.savedAt.render := rfl
  rw [ofJson, toJson, Json.parts_two (by decide)]
  dsimp only
  rw [htext, Option.bind_some, Timestamp.parse_render h]
  rfl

theorem decodes_ofJson (σ : Symbols) {f : StateFile} (h : f.savedAt.isValid = true) :
    Decodes ofJson (f.toJson σ) (f.snapshot.names σ) fun find =>
      ⟨f.savedAt, f.snapshot.relabel fun a => find (σ.name a)⟩ := by
  have hdepth : (f.toJson σ).depth = (f.snapshot.toJson σ).depth + 1 := by
    simp [toJson]
  exact (Snapshot.decodes_ofJson σ f.snapshot).wrap (StateFile.mk f.savedAt) hdepth
    (fun τ => rfl) (ofJson_toJson σ h)

end StateFile

end Entailment
