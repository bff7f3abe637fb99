import Mathlib.Data.Nat.Find
import Mathlib.Order.Bounds.Defs
import Entailment.Proofs.Symbol

/-! Tables of names over whole sessions. Names are numbered in the order in which they are
first asked for, and a demand for a new name is met by the first number that gives one. -/
namespace Entailment.Symbols

/-- The search for a new name, without a bound: from `counter` on, numbers are tried one after
the other until the name of one of them, which is `n`, is not in the table. -/
inductive Finds (σ : Symbols) (base : String) : UInt32 → UInt32 → Prop
  | here {counter} (h : σ.contains (base ++ toString (counter + 1).toNat) = false) :
    Finds σ base counter (counter + 1)
  | later {counter n} (h : σ.contains (base ++ toString (counter + 1).toNat) = true)
      (hrest : Finds σ base (counter + 1) n) : Finds σ base counter n

/-- The numbers above `k` whose names are not in the table. -/
def unused (σ : Symbols) (base : String) (k : Nat) : Set Nat :=
  {n | k < n ∧ σ.contains (base ++ toString n) = false}

instance (σ : Symbols) (base : String) (k : Nat) : DecidablePred (· ∈ σ.unused base k) :=
  fun _ => inferInstanceAs (Decidable (_ ∧ _))

section Search

variable {σ : Symbols} {base : String} {counter n : UInt32}

theorem finds_freshCounter {tries : Nat}
    (h : σ.contains (base ++ toString (σ.freshCounter base tries counter).toNat) = false) :
    Finds σ base counter (σ.freshCounter base tries counter) := by
  induction tries generalizing counter with
  | zero => exact .here h
  | succ tries ih =>
    rw [freshCounter] at h ⊢
    split
    · rename_i hused
      rw [if_pos hused] at h
      exact .later hused (ih h)
    · rename_i hfree
      exact .here (Bool.eq_false_iff.mpr hfree)

/-- There are infinitely many names with one base, so the table does not have them all. -/
theorem exists_isLeast_unused (σ : Symbols) (base : String) (k : Nat) :
    ∃ m, IsLeast (σ.unused base k) m := by
  have hsome : ∃ m, m ∈ σ.unused base k := by
    by_contra hnone
    have hall (i : Nat) : σ.contains (base ++ toString (k + 1 + i)) = true := by
      by_contra hfree
      exact hnone ⟨k + 1 + i, by omega, Bool.eq_false_iff.mpr hfree⟩
    obtain ⟨place, hplace⟩ := exists_injective_of_contains (fun _ _ => Nat.add_left_cancel) hall
    exact not_injective_infinite_finite place hplace
  exact ⟨Nat.find hsome, Nat.find_spec hsome, fun _ h => Nat.find_min' hsome h⟩

theorem toNat_add_one {c : UInt32} (h : c.toNat + 1 < UInt32.size) :
    (c + 1).toNat = c.toNat + 1 := by
  rw [UInt32.toNat_add]
  exact Nat.mod_eq_of_lt h

/-- Where the first unused number is a value of the counter, the search ends there. -/
theorem Finds.toNat_eq (h : Finds σ base counter n) {m : Nat}
    (hm : IsLeast (σ.unused base counter.toNat) m) (hfits : m < UInt32.size) : n.toNat = m := by
  induction h with
  | @here counter hfree =>
    obtain ⟨⟨hlt, -⟩, hleast⟩ := hm
    have hnext : (counter + 1).toNat = counter.toNat + 1 := toNat_add_one (by omega)
    exact Nat.le_antisymm (by omega) (hleast ⟨by omega, hfree⟩)
  | @later counter n hused _ ih =>
    obtain ⟨⟨hlt, hfree⟩, hleast⟩ := hm
    have hnext : (counter + 1).toNat = counter.toNat + 1 := toNat_add_one (by omega)
    have hne : m ≠ (counter + 1).toNat := by
      rintro rfl
      rw [hused] at hfree
      cases hfree
    refine ih ⟨⟨by omega, hfree⟩, fun k hk => hleast ⟨?_, hk.2⟩⟩
    have hlater := hk.1
    omega

end Search

/-- How a demand for a new name is met in the table `σ`: the search ends, with the first unused
number unless that is beyond the counter, and only the name with the number it ends with is
added, under a symbol that the table did not have. -/
structure Supplies (σ : Symbols) (base : String) (counter : UInt32)
    (answer : (Symbol × UInt32) × Symbols) : Prop where
  finds : Finds σ base counter answer.1.2
  least : ∃ m, IsLeast (σ.unused base counter.toNat) m ∧
    (m < UInt32.size → answer.1.2.toNat = m)
  names : answer.2.names = σ.names.push (base ++ toString answer.1.2.toNat)
  name : answer.2.name answer.1.1 = base ++ toString answer.1.2.toNat
  new : ¬ σ.Knows answer.1.1

theorem supplies_fresh {σ : Symbols} (h : σ.size < UInt32.size) (base : String)
    (counter : UInt32) : Supplies σ base counter (fresh base counter σ) := by
  have hfinds := finds_freshCounter (contains_freshCounter h base counter)
  obtain ⟨m, hm⟩ := exists_isLeast_unused σ base counter.toNat
  exact {
    finds := hfinds
    least := ⟨m, hm, hfinds.toNat_eq hm⟩
    names := (fresh_spec h base counter).2
    name := name_fresh base counter σ
    new := not_knows_fresh h base counter }

/-- What is asked of a table: the symbol of a name, or one whose name is new. -/
inductive Demand where
  | name (text : String)
  | new (base : String) (counter : UInt32)

namespace Demand

def meet : Demand → Naming Symbol
  | .name text => intern text
  | .new base counter => fun σ => ((fresh base counter σ).1.1, (fresh base counter σ).2)

/-- Meets demands one after the other. -/
def meetAll (ds : List Demand) : Naming (List Symbol) := ds.mapM meet

/-- The table of a session just before its demand number `i`. -/
def tableAt (ds : List Demand) (i : Nat) : Symbols := (meetAll (ds.take i) empty).2

theorem le_meet (d : Demand) (σ : Symbols) : σ ≤ (d.meet σ).2 := by
  cases d with
  | name text => exact le_intern text σ
  | new base counter => exact le_fresh base counter σ

theorem knows_meet (d : Demand) (σ : Symbols) : (d.meet σ).2.Knows (d.meet σ).1 := by
  cases d with
  | name text => exact knows_intern text σ
  | new base counter => exact knows_fresh base counter σ

/-- One step of a session: the table has the symbol already, or the symbol gets the next number. -/
theorem meet_cases {σ : Symbols} (h : σ.size < UInt32.size) (d : Demand) :
    (σ.Knows (d.meet σ).1 ∧ (d.meet σ).2 = σ) ∨
    ((d.meet σ).1 = ⟨σ.size⟩ ∧ (d.meet σ).2.size = σ.size + 1) := by
  cases d with
  | name text =>
    rw [meet]
    rcases intern_cases text σ with ⟨i, hi, heq⟩ | ⟨-, hs, hnames⟩
    · rw [heq]
      exact .inl ⟨knows_iff.mpr ⟨text, hi⟩, rfl⟩
    · refine .inr ⟨hs, ?_⟩
      rw [size, hnames, Array.size_push, size]
  | new base counter => exact .inr ⟨fresh_eq_size h base counter, size_fresh h base counter⟩

theorem meetAll_append (ds es : List Demand) (σ : Symbols) :
    meetAll (ds ++ es) σ =
      ((meetAll ds σ).1 ++ (meetAll es (meetAll ds σ).2).1, (meetAll es (meetAll ds σ).2).2) := by
  rw [meetAll, List.mapM_append]
  rfl

theorem meetAll_singleton (d : Demand) (σ : Symbols) :
    meetAll [d] σ = ([(d.meet σ).1], (d.meet σ).2) := by
  rw [meetAll, List.mapM_cons]
  rfl

theorem le_meetAll (ds : List Demand) (σ : Symbols) : σ ≤ (meetAll ds σ).2 := by
  induction ds using List.reverseRecOn with
  | nil => exact le_refl σ
  | append_singleton ds d ih =>
    rw [meetAll_append, meetAll_singleton]
    exact le_trans ih (le_meet d _)

theorem knows_of_mem_meetAll {ds : List Demand} {σ : Symbols} {s : Symbol}
    (h : s ∈ (meetAll ds σ).1) : (meetAll ds σ).2.Knows s := by
  induction ds using List.reverseRecOn with
  | nil => cases h
  | append_singleton ds d ih =>
    rw [meetAll_append, meetAll_singleton] at h ⊢
    rcases List.mem_append.mp h with hs | hs
    · exact (ih hs).mono (le_meet d _)
    · rw [List.mem_singleton.mp hs]
      exact knows_meet d _

/-- The symbols of a session, in the order in which they first appear, are numbered from zero
without a gap, and the table has no others. -/
theorem eraseDups_meetAll {ds : List Demand} (h : (meetAll ds empty).2.size < UInt32.size) :
    (meetAll ds empty).1.eraseDups = (List.range (meetAll ds empty).2.size).map Symbol.mk := by
  induction ds using List.reverseRecOn with
  | nil => rfl
  | append_singleton ds d ih =>
    rw [meetAll_append, meetAll_singleton] at h ⊢
    have hsize : (meetAll ds empty).2.size < UInt32.size :=
      lt_of_le_of_lt (size_le (le_meet d _)) h
    have hmem (s : Symbol) : s ∈ (meetAll ds empty).1 ↔ (meetAll ds empty).2.Knows s := by
      rw [← List.mem_eraseDups, ih hsize]
      constructor
      · simp only [List.mem_map, List.mem_range]
        rintro ⟨i, hi, rfl⟩
        exact hi
      · exact fun hs => List.mem_map.mpr ⟨s.id, List.mem_range.mpr hs, rfl⟩
    rw [List.eraseDups_append, ih hsize]
    rcases meet_cases hsize d with ⟨hknows, heq⟩ | ⟨hs, hnext⟩
    · rw [heq]
      simp [List.removeAll, (hmem _).mpr hknows]
    · have hnew : (⟨(meetAll ds empty).2.size⟩ : Symbol) ∉ (meetAll ds empty).1 :=
        fun hs => Nat.lt_irrefl _ ((hmem _).mp hs)
      rw [hs, hnext, List.range_succ, List.map_append]
      simp [List.removeAll, hnew, List.eraseDups_cons]

theorem length_meetAll (ds : List Demand) (σ : Symbols) :
    (meetAll ds σ).1.length = ds.length := by
  induction ds using List.reverseRecOn with
  | nil => rfl
  | append_singleton ds d ih =>
    rw [meetAll_append, meetAll_singleton, List.length_append, ih, List.length_append]
    rfl

/-- The demand is met in the table of its time, and what it has done is kept. -/
theorem meet_of_getElem? {ds : List Demand} {i : Nat} {d : Demand} (h : ds[i]? = some d) :
    (meetAll ds empty).1[i]? = some (d.meet (tableAt ds i)).1 ∧
      (d.meet (tableAt ds i)).2 ≤ (meetAll ds empty).2 := by
  obtain ⟨hi, rfl⟩ := List.getElem?_eq_some_iff.mp h
  have hsplit : ds = ds.take i ++ ([ds[i]] ++ ds.drop (i + 1)) := by
    rw [List.singleton_append, ← List.drop_eq_getElem_cons hi, List.take_append_drop]
  have hrun := meetAll_append (ds.take i) ([ds[i]] ++ ds.drop (i + 1)) empty
  rw [← hsplit, meetAll_append, meetAll_singleton] at hrun
  have hlength : (meetAll (ds.take i) empty).1.length = i := by
    rw [length_meetAll, List.length_take_of_le hi.le]
  rw [hrun]
  refine ⟨?_, le_meetAll _ _⟩
  rw [List.getElem?_append_right hlength.le, hlength, Nat.sub_self]
  rfl

theorem tableAt_le (ds : List Demand) (i : Nat) : tableAt ds i ≤ (meetAll ds empty).2 := by
  have hrun := meetAll_append (ds.take i) (ds.drop i) empty
  rw [List.take_append_drop] at hrun
  rw [hrun]
  exact le_meetAll _ _

/-- Symbols stand for names one to one, in the order of their first appearance and for good, and
every demand for a new name is met by the next one. -/
theorem meetAll_exact (ds : List Demand) (h : (meetAll ds empty).2.size < UInt32.size) :
    (∀ (i : Nat) text, ds[i]? = some (.name text) →
      (meetAll ds empty).1[i]?.map (meetAll ds empty).2.name = some text) ∧
    (∀ a ∈ (meetAll ds empty).1, ∀ b ∈ (meetAll ds empty).1,
      a = b ↔ (meetAll ds empty).2.name a = (meetAll ds empty).2.name b) ∧
    (meetAll ds empty).1.eraseDups = (List.range (meetAll ds empty).2.size).map Symbol.mk ∧
    (∀ i, tableAt ds i ≤ (meetAll ds empty).2) ∧
    ∀ (i : Nat) base counter, ds[i]? = some (.new base counter) →
      (meetAll ds empty).1[i]? = some (fresh base counter (tableAt ds i)).1.1 ∧
      Supplies (tableAt ds i) base counter (fresh base counter (tableAt ds i)) := by
  refine ⟨fun i text hi => ?_, fun a ha b hb => ?_, eraseDups_meetAll h, tableAt_le ds,
    fun i base counter hi => ⟨(meet_of_getElem? hi).1, supplies_fresh ?_ base counter⟩⟩
  · obtain ⟨hs, hle⟩ := meet_of_getElem? hi
    rw [hs, Option.map_some, name_eq_of_le hle (knows_meet _ _)]
    exact congrArg some (name_intern text _)
  · exact ⟨congrArg _, name_inj (knows_of_mem_meetAll ha) (knows_of_mem_meetAll hb)⟩
  · exact lt_of_le_of_lt (size_le (tableAt_le ds i)) h

/-- A session with names that look like made ones. -/
def lookalikes : List Demand :=
  [.name "x_1", .name "x_2", .new "x_" 0, .name "x_4", .name "x_3", .new "x_" 3]

theorem meetAll_exact_lookalikes :
    (meetAll lookalikes empty).2.size < UInt32.size ∧
    (meetAll lookalikes empty).1[4]?.map (meetAll lookalikes empty).2.name = some "x_3" ∧
    (meetAll lookalikes empty).1[5]? = some (fresh "x_" 3 (tableAt lookalikes 5)).1.1 ∧
    Supplies (tableAt lookalikes 5) "x_" 3 (fresh "x_" 3 (tableAt lookalikes 5)) := by
  have h : (meetAll lookalikes empty).2.size < UInt32.size := by decide +kernel
  obtain ⟨hname, -, -, -, hnew⟩ := meetAll_exact lookalikes h
  exact ⟨h, hname 4 "x_3" rfl, hnew 5 "x_" 3 rfl⟩

end Demand

end Entailment.Symbols
