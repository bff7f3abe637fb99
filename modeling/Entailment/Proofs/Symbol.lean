import Entailment.Symbol
import Mathlib.Data.Fintype.Card
import Mathlib.Data.Fintype.EquivFin
import Mathlib.Order.Basic

/-! Tables of names only grow, and a name made by counting was not in the table
before, as long as the counter has more values than the table has names. -/
namespace Entailment

theorem Symbol.lookup_cons {β : Type} (x y : Symbol) (b : β) (l : List (Symbol × β)) :
    ((y, b) :: l).lookup x = if x = y then some b else l.lookup x := by
  rw [List.lookup_cons]
  by_cases h : x = y
  · simp [h]
  · simp [h, beq_eq_false_iff_ne.mpr h]

theorem Symbol.mem_of_lookup {β : Type} {x : Symbol} {b : β} {l : List (Symbol × β)}
    (h : l.lookup x = some b) : (x, b) ∈ l := by
  induction l with
  | nil => cases h
  | cons p l ih =>
    obtain ⟨y, c⟩ := p
    rw [Symbol.lookup_cons] at h
    split at h
    · rename_i hxy
      rw [hxy, Option.some.inj h]
      exact List.mem_cons_self
    · exact List.mem_cons_of_mem _ (ih h)

namespace Symbols

/-- The symbol was issued by the table. -/
def Knows (σ : Symbols) (s : Symbol) : Prop := s.id < σ.size

instance (σ : Symbols) (s : Symbol) : Decidable (σ.Knows s) :=
  inferInstanceAs (Decidable (s.id < σ.size))

theorem knows_iff {σ : Symbols} {s : Symbol} :
    σ.Knows s ↔ ∃ name, σ.names[s.id]? = some name := by
  unfold Knows size
  rw [← Option.isSome_iff_exists]
  simp

theorem name_eq {σ : Symbols} {s : Symbol} {name : String} (h : σ.names[s.id]? = some name) :
    σ.name s = name := by
  unfold Symbols.name
  rw [Array.getD_eq_getD_getElem?, h]
  rfl

/-- A later table keeps the number of every name. -/
instance : Preorder Symbols where
  le σ τ := ∀ (i : Nat) (name : String), σ.names[i]? = some name → τ.names[i]? = some name
  le_refl _ := fun _ _ h => h
  le_trans _ _ _ h h' := fun i name hi => h' i name (h i name hi)

theorem Knows.mono {σ τ : Symbols} {s : Symbol} (h : σ ≤ τ) (hs : σ.Knows s) : τ.Knows s := by
  obtain ⟨name, hname⟩ := knows_iff.mp hs
  exact knows_iff.mpr ⟨name, h _ _ hname⟩

theorem size_le {σ τ : Symbols} (h : σ ≤ τ) : σ.size ≤ τ.size := by
  by_contra hlt
  have hτ : τ.Knows ⟨τ.size⟩ := Knows.mono h (Nat.lt_of_not_le hlt)
  exact Nat.lt_irrefl _ hτ

theorem name_eq_of_le {σ τ : Symbols} {s : Symbol} (h : σ ≤ τ) (hs : σ.Knows s) :
    τ.name s = σ.name s := by
  obtain ⟨name, hname⟩ := knows_iff.mp hs
  rw [name_eq hname, name_eq (h _ _ hname)]

theorem name_inj {σ : Symbols} {a b : Symbol} (ha : σ.Knows a) (hb : σ.Knows b)
    (h : σ.name a = σ.name b) : a = b := by
  obtain ⟨name, hname⟩ := knows_iff.mp ha
  obtain ⟨name', hname'⟩ := knows_iff.mp hb
  rw [name_eq hname, name_eq hname'] at h
  have hindex := (σ.index_iff name a.id).mpr hname
  rw [h, (σ.index_iff name' b.id).mpr hname'] at hindex
  exact congrArg Symbol.mk (Option.some.inj hindex).symm

/-- `m` sends each of the symbols to the one that has its name in the other table. -/
structure Namesakes (σ σ' : Symbols) (m : Symbol → Symbol) (as : List Symbol) : Prop where
  known : ∀ a ∈ as, σ.Knows a
  known' : ∀ a ∈ as, σ'.Knows (m a)
  name : ∀ a ∈ as, σ'.name (m a) = σ.name a

namespace Namesakes

variable {σ σ' : Symbols} {m : Symbol → Symbol} {as : List Symbol}

theorem injOn (h : σ.Namesakes σ' m as) {a b : Symbol} (ha : a ∈ as) (hb : b ∈ as)
    (hab : m a = m b) : a = b := by
  refine name_inj (h.known a ha) (h.known b hb) ?_
  rw [← h.name a ha, ← h.name b hb, hab]

/-- In a later table all symbols are their own namesakes. -/
theorem of_le (h : σ ≤ σ') (hknown : ∀ a ∈ as, σ.Knows a) : σ.Namesakes σ' id as :=
  ⟨hknown, fun a ha => (hknown a ha).mono h, fun a ha => name_eq_of_le h (hknown a ha)⟩

theorem earlier {τ : Symbols} (h : σ.Namesakes σ' m as) (hle : τ ≤ σ)
    (hknown : ∀ a ∈ as, τ.Knows a) : τ.Namesakes σ' m as :=
  ⟨hknown, h.known', fun a ha => (h.name a ha).trans (name_eq_of_le hle (hknown a ha))⟩

theorem later {τ : Symbols} (h : σ.Namesakes σ' m as) (hle : σ' ≤ τ) : σ.Namesakes τ m as :=
  ⟨h.known, fun a ha => (h.known' a ha).mono hle,
    fun a ha => (name_eq_of_le hle (h.known' a ha)).trans (h.name a ha)⟩

theorem eq_of_le (h : σ.Namesakes σ' m as) (hle : σ ≤ σ') {a : Symbol} (ha : a ∈ as) : m a = a :=
  name_inj (h.known' a ha) ((h.known a ha).mono hle)
    ((h.name a ha).trans (name_eq_of_le hle (h.known a ha)).symm)

end Namesakes

theorem contains_iff {σ : Symbols} {name : String} :
    σ.contains name = true ↔ ∃ i : Nat, σ.names[i]? = some name := by
  unfold contains
  rw [Std.TreeMap.contains_eq_isSome_getElem?, Option.isSome_iff_exists]
  simp only [σ.index_iff]

/-- What interning does: the name has its number already, or it gets the next one. -/
theorem intern_cases (name : String) (σ : Symbols) :
    (∃ i : Nat, σ.names[i]? = some name ∧ intern name σ = (⟨i⟩, σ)) ∨
    (σ.contains name = false ∧ (intern name σ).1 = ⟨σ.size⟩ ∧
      (intern name σ).2.names = σ.names.push name) := by
  obtain ⟨names, index, h⟩ := σ
  simp only [intern]
  split
  · rename_i i hi
    exact .inl ⟨i, (h name i).mp hi, rfl⟩
  · rename_i hnone
    refine .inr ⟨?_, rfl, rfl⟩
    unfold contains
    rw [Std.TreeMap.contains_eq_isSome_getElem?, hnone]
    rfl

theorem le_intern (name : String) (σ : Symbols) : σ ≤ (intern name σ).2 := by
  rcases intern_cases name σ with ⟨i, -, h⟩ | ⟨-, -, h⟩
  · rw [h]
  · intro i other hi
    have hlt : i < σ.names.size := by
      by_contra hge
      rw [Array.getElem?_eq_none (by omega)] at hi
      cases hi
    rw [h, Array.getElem?_push_lt hlt, ← hi, Array.getElem?_eq_getElem hlt]

theorem names_intern (name : String) (σ : Symbols) :
    (intern name σ).2.names[(intern name σ).1.id]? = some name := by
  rcases intern_cases name σ with ⟨i, hi, h⟩ | ⟨-, hs, h⟩
  · rw [h]
    exact hi
  · rw [h, hs]
    exact Array.getElem?_push_size

theorem knows_intern (name : String) (σ : Symbols) : (intern name σ).2.Knows (intern name σ).1 :=
  knows_iff.mpr ⟨name, names_intern name σ⟩

theorem name_intern (name : String) (σ : Symbols) :
    (intern name σ).2.name (intern name σ).1 = name :=
  name_eq (names_intern name σ)

theorem contains_intern (name : String) (σ : Symbols) :
    (intern name σ).2.contains name = true :=
  contains_iff.mpr ⟨_, names_intern name σ⟩

theorem contains_mono {σ τ : Symbols} {name : String} (h : σ ≤ τ)
    (hname : σ.contains name = true) : τ.contains name = true := by
  obtain ⟨i, hi⟩ := contains_iff.mp hname
  exact contains_iff.mpr ⟨i, h i name hi⟩

/-- The symbol of a name of the table. -/
def find (σ : Symbols) (name : String) : Symbol := ⟨σ.index[name]?.getD σ.size⟩

theorem find_eq {σ : Symbols} {i : Nat} {name : String} (h : σ.names[i]? = some name) :
    σ.find name = ⟨i⟩ := by
  unfold find
  rw [(σ.index_iff name i).mpr h]
  rfl

theorem find_name {σ : Symbols} {a : Symbol} (h : σ.Knows a) : σ.find (σ.name a) = a := by
  obtain ⟨name, hname⟩ := knows_iff.mp h
  rw [name_eq hname, find_eq hname]

theorem find_intern {name : String} {σ τ : Symbols} (h : (intern name σ).2 ≤ τ) :
    τ.find name = (intern name σ).1 :=
  find_eq (h _ _ (names_intern name σ))

/-- Symbols whose names are in the other table have namesakes there. -/
theorem namesakes_find {σ τ : Symbols} {as : List Symbol} (hknown : ∀ a ∈ as, σ.Knows a)
    (h : ∀ a ∈ as, τ.contains (σ.name a) = true) :
    σ.Namesakes τ (fun a => τ.find (σ.name a)) as := by
  have hfind (a : Symbol) (ha : a ∈ as) : τ.names[(τ.find (σ.name a)).id]? = some (σ.name a) := by
    obtain ⟨i, hi⟩ := contains_iff.mp (h a ha)
    rwa [find_eq hi]
  exact ⟨hknown, fun a ha => knows_iff.mpr ⟨_, hfind a ha⟩, fun a ha => name_eq (hfind a ha)⟩

theorem le_internAll (names : List String) (σ : Symbols) : σ ≤ (internAll names σ).2 := by
  unfold internAll
  induction names generalizing σ with
  | nil => exact le_refl σ
  | cons name names ih =>
    rw [List.mapM_cons]
    exact le_trans (le_intern name σ) (ih (intern name σ).2)

theorem append_toString_injective (base : String) :
    Function.Injective fun n : Nat => base ++ toString n := by
  intro m n h
  have hrepr : m.repr.toList = n.repr.toList := by
    have := congrArg String.toList h
    simpa using this
  rw [Nat.toList_repr, Nat.toList_repr] at hrepr
  rw [← Nat.ofDigitChars_ten_toDigits (n := m), hrepr, Nat.ofDigitChars_ten_toDigits]

/-- If even the last name tried is in the table, all names tried are. -/
theorem contains_of_contains_freshCounter {σ : Symbols} {base : String} {tries : Nat}
    {counter : UInt32}
    (h : σ.contains (base ++ toString (σ.freshCounter base tries counter).toNat) = true)
    (k : Nat) (hk : k ≤ tries) :
    σ.contains (base ++ toString (counter + 1 + UInt32.ofNat k).toNat) = true := by
  induction tries generalizing counter k with
  | zero =>
    obtain rfl : k = 0 := Nat.le_zero.mp hk
    simpa [freshCounter] using h
  | succ tries ih =>
    rw [freshCounter] at h
    split at h
    · rename_i hfirst
      cases k with
      | zero => simpa using hfirst
      | succ k =>
        have hshift : counter + 1 + UInt32.ofNat (k + 1) = counter + 1 + 1 + UInt32.ofNat k := by
          rw [UInt32.ofNat_add, UInt32.add_comm (UInt32.ofNat k), ← UInt32.add_assoc]
          rfl
        rw [hshift]
        exact ih h k (Nat.le_of_succ_le_succ hk)
    · rename_i hfirst
      exact absurd h hfirst

/-- Names that differ in their number have different places in the table. -/
theorem exists_injective_of_contains {α : Type} {σ : Symbols} {base : String} {f : α → Nat}
    (hf : Function.Injective f) (h : ∀ a, σ.contains (base ++ toString (f a)) = true) :
    ∃ place : α → Fin σ.size, Function.Injective place := by
  choose place hplace using fun a => contains_iff.mp (h a)
  have hlt (a : α) : place a < σ.size := knows_iff.mpr ⟨_, hplace a⟩
  refine ⟨fun a => ⟨place a, hlt a⟩, fun a b hab => ?_⟩
  have hsame : place a = place b := congrArg Fin.val hab
  have hname := hplace a
  rw [hsame, hplace b, Option.some.injEq] at hname
  exact hf (append_toString_injective base hname.symm)

/-- More names are tried than the table has, so the last of them is new. -/
theorem contains_freshCounter {σ : Symbols} (h : σ.size < UInt32.size) (base : String)
    (counter : UInt32) :
    σ.contains (base ++ toString (σ.freshCounter base σ.size counter).toNat) = false := by
  by_contra hlast
  have hall (k : Fin (σ.size + 1)) := contains_of_contains_freshCounter
    (Bool.of_not_eq_false hlast) k (Nat.le_of_lt_succ k.isLt)
  have hinj : Function.Injective
      fun k : Fin (σ.size + 1) => (counter + 1 + UInt32.ofNat k).toNat := by
    intro j k hjk
    have hindex := congrArg UInt32.toNat (UInt32.add_right_inj _ |>.mp (UInt32.toNat_inj.mp hjk))
    rw [UInt32.toNat_ofNat_of_lt' (by omega), UInt32.toNat_ofNat_of_lt' (by omega)] at hindex
    exact Fin.ext hindex
  obtain ⟨place, hplace⟩ := exists_injective_of_contains hinj hall
  have hcard := Fintype.card_le_of_injective place hplace
  rw [Fintype.card_fin, Fintype.card_fin] at hcard
  omega

/-- Once a new name has been tried, further tries change nothing. -/
theorem freshCounter_of_le {σ : Symbols} {base : String} {tries more : Nat} {counter : UInt32}
    (h : σ.contains (base ++ toString (σ.freshCounter base tries counter).toNat) = false)
    (hle : tries ≤ more) :
    σ.freshCounter base more counter = σ.freshCounter base tries counter := by
  induction tries generalizing more counter with
  | zero =>
    cases more with
    | zero => rfl
    | succ more =>
      rw [freshCounter] at h
      rw [freshCounter, freshCounter, if_neg (by rw [h]; exact Bool.false_ne_true)]
  | succ tries ih =>
    obtain ⟨more, rfl⟩ := Nat.exists_eq_add_one.mpr (Nat.zero_lt_of_lt hle)
    rw [freshCounter] at h
    rw [freshCounter, freshCounter]
    split
    · rename_i hfirst
      rw [if_pos hfirst] at h
      exact ih h (Nat.le_of_succ_le_succ hle)
    · rfl

theorem fresh_eq (base : String) (counter : UInt32) (σ : Symbols) :
    fresh base counter σ =
      (((intern (base ++ toString (σ.freshCounter base σ.size counter).toNat) σ).1,
        σ.freshCounter base σ.size counter),
        (intern (base ++ toString (σ.freshCounter base σ.size counter).toNat) σ).2) := rfl

theorem le_fresh (base : String) (counter : UInt32) (σ : Symbols) :
    σ ≤ (fresh base counter σ).2 :=
  le_intern _ σ

theorem knows_fresh (base : String) (counter : UInt32) (σ : Symbols) :
    (fresh base counter σ).2.Knows (fresh base counter σ).1.1 :=
  knows_intern _ σ

theorem name_fresh (base : String) (counter : UInt32) (σ : Symbols) :
    (fresh base counter σ).2.name (fresh base counter σ).1.1 =
      base ++ toString (fresh base counter σ).1.2.toNat :=
  name_intern _ σ

/-- What making a new name does: the table gets it, under the next number. -/
theorem fresh_spec {σ : Symbols} (h : σ.size < UInt32.size) (base : String) (counter : UInt32) :
    (fresh base counter σ).1.1 = ⟨σ.size⟩ ∧ (fresh base counter σ).2.names =
      σ.names.push (base ++ toString (fresh base counter σ).1.2.toNat) := by
  rw [fresh_eq]
  rcases intern_cases (base ++ toString (σ.freshCounter base σ.size counter).toNat) σ with
    ⟨i, hi, -⟩ | ⟨-, hs, hnames⟩
  · have hnew := contains_freshCounter h base counter
    rw [contains_iff.mpr ⟨i, hi⟩] at hnew
    cases hnew
  · exact ⟨hs, hnames⟩

/-- A fresh symbol has the next number. -/
theorem fresh_eq_size {σ : Symbols} (h : σ.size < UInt32.size) (base : String)
    (counter : UInt32) : (fresh base counter σ).1.1 = ⟨σ.size⟩ :=
  (fresh_spec h base counter).1

theorem size_fresh {σ : Symbols} (h : σ.size < UInt32.size) (base : String) (counter : UInt32) :
    (fresh base counter σ).2.size = σ.size + 1 := by
  unfold size
  rw [(fresh_spec h base counter).2, Array.size_push]

theorem not_knows_fresh {σ : Symbols} (h : σ.size < UInt32.size) (base : String)
    (counter : UInt32) : ¬ σ.Knows (fresh base counter σ).1.1 := by
  rw [fresh_eq_size h]
  exact Nat.lt_irrefl _

end Symbols

end Entailment
