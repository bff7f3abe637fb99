import Std.Data.TreeMap

/-! Names and their numbers. A table numbers every name once, in the order in
which names first appear, and everything else compares symbols by number. -/
namespace Entailment

/-- An interned name. Its spelling is known to the table that issued it. -/
structure Symbol where
  id : Nat
deriving DecidableEq, Repr, Inhabited

namespace Symbol

instance : Ord Symbol := ⟨compareOn Symbol.id⟩

instance : LT Symbol := ⟨fun a b => a.id < b.id⟩

instance (a b : Symbol) : Decidable (a < b) := inferInstanceAs (Decidable (a.id < b.id))

theorem compare_def (a b : Symbol) : compare a b = compare a.id b.id := rfl

theorem lt_def {a b : Symbol} : a < b ↔ a.id < b.id := Iff.rfl

instance : Std.TransOrd Symbol := inferInstanceAs (Std.TransCmp (compareOn Symbol.id))

instance : Std.LawfulEqOrd Symbol where
  compare_self := Std.ReflOrd.compare_self (α := Nat)
  eq_of_compare := by
    rintro ⟨a⟩ ⟨b⟩ h
    exact congrArg Symbol.mk (Std.LawfulEqOrd.eq_of_compare (α := Nat) h)

end Symbol

/-- A table of names. The index is the inverse of the list of names, so no name
is listed twice. -/
structure Symbols where
  names : Array String
  index : Std.TreeMap String Nat
  index_iff : ∀ (name : String) (i : Nat), index[name]? = some i ↔ names[i]? = some name

/-- Computations that may add names to the table. -/
abbrev Naming := StateM Symbols

namespace Symbols

def empty : Symbols := ⟨#[], ∅, by simp⟩

instance : Inhabited Symbols := ⟨empty⟩

def size (σ : Symbols) : Nat := σ.names.size

def contains (σ : Symbols) (name : String) : Bool := σ.index.contains name

/-- The spelling of a symbol of this table. -/
def name (σ : Symbols) (s : Symbol) : String := σ.names.getD s.id ""

/-- The symbol of a name, which gets the next number if it is new. -/
def intern (name : String) : Naming Symbol
  | ⟨names, index, h⟩ =>
    match hn : index[name]? with
    | some i => (⟨i⟩, ⟨names, index, h⟩)
    | none =>
      (⟨names.size⟩, ⟨names.push name, index.insert name names.size, by
        intro other i
        rw [Std.TreeMap.getElem?_insert, Array.getElem?_push]
        by_cases heq : name = other
        · subst heq
          rw [if_pos (Std.ReflCmp.compare_self)]
          have hnone (j : Nat) : names[j]? ≠ some name := fun hj => by
            have := (h name j).mpr hj
            rw [hn] at this
            cases this
          by_cases hi : i = names.size
          · simp [hi]
          · simp [hi, hnone i, Ne.symm hi]
        · rw [if_neg (fun hc => heq (Std.LawfulEqCmp.eq_of_compare hc))]
          by_cases hi : i = names.size
          · subst hi
            simp only [if_true, Option.some.injEq, heq, iff_false]
            intro hc
            have := (h other names.size).mp hc
            simp at this
          · simp [hi, h other i]⟩)

/-- The symbols of several names, in order. -/
def internAll (names : List String) : Naming (List Symbol) :=
  names.mapM intern

/-- The first counter value after `counter` whose name is new. The bound on the
number of tries is the size of the table: so many names cannot fill one more
place. -/
def freshCounter (σ : Symbols) (base : String) : Nat → UInt32 → UInt32
  | 0, counter => counter + 1
  | tries + 1, counter =>
    if σ.contains (base ++ toString (counter + 1).toNat) then
      freshCounter σ base tries (counter + 1)
    else counter + 1

/-- A symbol whose name is `base` followed by a number and was not in the table
before. Numbers are tried upwards from the one after `counter`. -/
def fresh (base : String) (counter : UInt32) : Naming (Symbol × UInt32) := fun σ =>
  let counter := σ.freshCounter base σ.size counter
  let (s, σ) := intern (base ++ toString counter.toNat) σ
  ((s, counter), σ)

end Symbols

/-- A variable name without a renaming suffix: the longest ending made of an
underscore and digits is dropped, unless nothing would be left. -/
def baseName (name : String) : String :=
  match name.toList.reverse.span Char.isDigit with
  | (_ :: _, '_' :: c :: before) => String.ofList (c :: before).reverse
  | _ => name

/-- A new symbol for a copy of the variable `x`. -/
def Symbols.freshLike (x : Symbol) (counter : UInt32) : Naming (Symbol × UInt32) := fun σ =>
  fresh (baseName (σ.name x) ++ "_") counter σ

end Entailment
