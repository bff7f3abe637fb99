import Entailment.Proofs.Saturation

/-! The numbers a search keeps of its clauses. Both orders of the passive set list the
same clauses, every stored clause is active or passive but not both, and a selection
moves one clause from the passive to the active ones. -/
namespace Entailment

namespace Saturation

variable {σ : Symbols} {c : Clause} {s s' : Saturation}

/-- The counter of fresh variables after new names were made. -/
def counted (counter : UInt32) (s : Saturation) : Saturation := { s with varCounter := counter }

/-- The search without one of its passive clauses. -/
def picked (id : Nat) (s : Saturation) : Saturation :=
  { s with
    picks := s.picks + 1
    byAge := s.byAge.erase id
    byWeight := s.byWeight.erase (priority (s.clause id), id) }

/-- The search after a passive clause was taken out. -/
def taken (s : Saturation) (weight id : Nat) : Saturation :=
  { s with
    picks := s.picks + 1
    byAge := s.byAge.erase id
    byWeight := s.byWeight.erase (weight, id) }

/-- The search goes on with the clause `id`: it has nothing to report and no timeout,
and it is not the turn of the oldest clause. -/
def Lightest (weight id : Nat) (s : Saturation) : Prop :=
  s.pending = [] ∧ s.limits.timeout = none ∧ (s.picks + 1) % pickPeriod ≠ 0 ∧
    s.byWeight.toList.head? = some (weight, id)

instance (weight id : Nat) (s : Saturation) : Decidable (s.Lightest weight id) :=
  inferInstanceAs (Decidable (_ ∧ _ ∧ _ ∧ _))

theorem Lightest.pick {weight id : Nat} (h : s.Lightest weight id) :
    s.pick = some (id, s.taken weight id) := by
  unfold Saturation.pick
  dsimp only
  rw [if_neg h.2.2.1, Std.TreeSet.min?_eq_head?_toList, h.2.2.2]
  rfl

/-- When it is the turn of the oldest clause, no passive clause is older than the one
selected. -/
theorem le_of_pick {id : Nat} (hturn : (s.picks + 1) % pickPeriod = 0)
    (hpick : s.pick = some (id, s')) : ∀ n ∈ s.byAge, id ≤ n := by
  unfold pick at hpick
  dsimp only at hpick
  rw [if_pos hturn] at hpick
  obtain ⟨oldest, hmin, heq⟩ := Option.map_eq_some_iff.mp hpick
  cases heq
  intro n hn
  exact Nat.isLE_compare.mp ((Std.TreeSet.min?_eq_some_iff_mem_and_forall.mp hmin).2 n hn)

/-- A selection leaves all but the passive set and the count of selections alone. -/
theorem pick_frame {id : Nat} (hpick : s.pick = some (id, s')) :
    s'.clauses = s.clauses ∧ s'.pending = s.pending ∧ s'.iterations = s.iterations ∧
      s'.limits = s.limits := by
  unfold pick at hpick
  dsimp only at hpick
  split at hpick
  · obtain ⟨_, -, heq⟩ := Option.map_eq_some_iff.mp hpick
    cases heq
    exact ⟨rfl, rfl, rfl, rfl⟩
  · obtain ⟨_, -, heq⟩ := Option.map_eq_some_iff.mp hpick
    cases heq
    exact ⟨rfl, rfl, rfl, rfl⟩

/-- The search with a passive clause made active. -/
def moved (id : Nat) (s : Saturation) : Saturation :=
  { s.picked id with active := s.active.push id, iterations := s.iterations + 1 }

section Store

variable (c : Clause) (s : Saturation)

theorem size_store : (s.store c).clauses.size = s.clauses.size + 1 := Array.size_push c

theorem clause_store_of_lt {id : Nat} (h : id < s.clauses.size) :
    (s.store c).clause id = s.clause id := by
  change (s.clauses.push c).getD id _ = s.clauses.getD id _
  rw [Array.getD_eq_getD_getElem?, Array.getD_eq_getD_getElem?, Array.getElem?_push_lt h,
    Array.getElem?_eq_getElem h]

theorem clause_store_size : (s.store c).clause s.clauses.size = c := by
  change (s.clauses.push c).getD s.clauses.size _ = c
  rw [Array.getD_eq_getD_getElem?, Array.getElem?_push_size]
  rfl

theorem mem_byAge_store {id : Nat} :
    id ∈ (s.store c).byAge ↔ id = s.clauses.size ∨ id ∈ s.byAge := by
  change id ∈ s.byAge.insert s.clauses.size ↔ _
  rw [Std.TreeSet.mem_insert, Std.LawfulEqCmp.compare_eq_iff_eq, eq_comm]

theorem mem_byWeight_store {p : Nat × Nat} :
    p ∈ (s.store c).byWeight ↔ p = (priority c, s.clauses.size) ∨ p ∈ s.byWeight := by
  change p ∈ s.byWeight.insert (priority c, s.clauses.size) ↔ _
  rw [Std.TreeSet.mem_insert, Std.LawfulEqCmp.compare_eq_iff_eq, eq_comm]

end Store

section Moved

variable {id : Nat}

theorem mem_byAge_moved {n : Nat} : n ∈ (s.moved id).byAge ↔ id ≠ n ∧ n ∈ s.byAge := by
  change n ∈ s.byAge.erase id ↔ _
  rw [Std.TreeSet.mem_erase, Ne, Std.LawfulEqCmp.compare_eq_iff_eq]

theorem mem_byWeight_moved {p : Nat × Nat} :
    p ∈ (s.moved id).byWeight ↔ (priority (s.clause id), id) ≠ p ∧ p ∈ s.byWeight := by
  change p ∈ s.byWeight.erase (priority (s.clause id), id) ↔ _
  rw [Std.TreeSet.mem_erase, Ne, Std.LawfulEqCmp.compare_eq_iff_eq]

theorem mem_active_moved {n : Nat} : n ∈ (s.moved id).active ↔ n ∈ s.active ∨ n = id :=
  Array.mem_push

end Moved

/-- The passive set is listed by weight as it is by age, and every stored clause is
either active or passive. -/
structure Indexed (s : Saturation) : Prop where
  weighed : ∀ p, p ∈ s.byWeight ↔ p.2 ∈ s.byAge ∧ p.1 = priority (s.clause p.2)
  distinct : s.active.toList.Nodup
  passive : ∀ id ∈ s.byAge, id ∉ s.active
  listed : ∀ id, id ∈ s.active ∨ id ∈ s.byAge ↔ id < s.clauses.size

namespace Indexed

theorem init (limits : Limits) : Indexed (init limits) where
  weighed p := by simp [Saturation.init]
  distinct := List.nodup_nil
  passive id hid := by simp [Saturation.init] at hid
  listed id := by simp [Saturation.init]

theorem lt_of_active (h : Indexed s) {id : Nat} (hid : id ∈ s.active) : id < s.clauses.size :=
  (h.listed id).mp (.inl hid)

theorem lt_of_byAge (h : Indexed s) {id : Nat} (hid : id ∈ s.byAge) : id < s.clauses.size :=
  (h.listed id).mp (.inr hid)

theorem store (h : Indexed s) (c : Clause) : Indexed (s.store c) where
  weighed := by
    rintro ⟨weight, id⟩
    rw [mem_byWeight_store, mem_byAge_store, h.weighed]
    dsimp only
    by_cases hid : id = s.clauses.size
    · have hold : s.clauses.size ∉ s.byAge := fun hmem => Nat.lt_irrefl _ (h.lt_of_byAge hmem)
      subst hid
      rw [clause_store_size]
      simp [hold]
    · by_cases hmem : id ∈ s.byAge
      · rw [clause_store_of_lt c s (h.lt_of_byAge hmem)]
        simp [hid, hmem]
      · simp [hid, hmem]
  distinct := h.distinct
  passive := by
    intro id hid hactive
    rcases (mem_byAge_store c s).mp hid with rfl | hid
    · exact Nat.lt_irrefl _ (h.lt_of_active hactive)
    · exact h.passive id hid hactive
  listed := by
    intro id
    have hlisted := h.listed id
    rw [mem_byAge_store, size_store, or_left_comm]
    change id = s.clauses.size ∨ id ∈ s.active ∨ id ∈ s.byAge ↔ _
    rw [hlisted]
    omega

theorem moved (h : Indexed s) {id : Nat} (hid : id ∈ s.byAge) : Indexed (s.moved id) where
  weighed := by
    rintro ⟨weight, n⟩
    rw [mem_byWeight_moved, mem_byAge_moved, h.weighed]
    change _ ↔ _ ∧ weight = priority (s.clause n)
    dsimp only
    constructor
    · rintro ⟨hne, hn, rfl⟩
      refine ⟨⟨?_, hn⟩, rfl⟩
      rintro rfl
      exact hne rfl
    · rintro ⟨⟨hne, hn⟩, rfl⟩
      exact ⟨fun heq => hne (congrArg Prod.snd heq), hn, rfl⟩
  distinct := by
    change (s.active.push id).toList.Nodup
    rw [Array.toList_push, List.nodup_append]
    refine ⟨h.distinct, by simp, fun n hn m hm => ?_⟩
    rw [List.mem_singleton.mp hm]
    rintro rfl
    exact h.passive n hid (Array.mem_toList_iff.mp hn)
  passive := by
    intro n hn hactive
    obtain ⟨hne, hn⟩ := mem_byAge_moved.mp hn
    rcases mem_active_moved.mp hactive with hactive | rfl
    · exact h.passive n hn hactive
    · exact hne rfl
  listed := by
    intro n
    rw [mem_active_moved, mem_byAge_moved]
    change _ ↔ n < s.clauses.size
    rw [← h.listed n]
    by_cases hn : n = id
    · subst hn
      simp [hid]
    · simp [hn, Ne.symm hn]

theorem of_taken (h : Indexed s) (htaken : Taken σ c s s') : Indexed s' := by
  cases htaken with
  | contradiction | answer | subsumed => exact ⟨h.weighed, h.distinct, h.passive, h.listed⟩
  | tautology | duplicate => exact h
  | stored names counter =>
    apply store
    exact ⟨h.weighed, h.distinct, h.passive, h.listed⟩

theorem insertAll (h : Indexed s) (cs : List Clause) (t : Session) :
    Indexed (insertAll cs s t).1 := by
  induction cs generalizing s t with
  | nil => exact h
  | cons c cs ih => exact ih (h.of_taken (taken_insert c s t)) _

/-- Whichever order the selection follows, it takes a passive clause out of both. -/
theorem pick_eq (h : Indexed s) {id : Nat} (hpick : s.pick = some (id, s')) :
    id ∈ s.byAge ∧ s' = s.picked id := by
  unfold Saturation.pick at hpick
  dsimp only at hpick
  split at hpick
  · obtain ⟨oldest, hmin, heq⟩ := Option.map_eq_some_iff.mp hpick
    cases heq
    exact ⟨(Std.TreeSet.min?_eq_some_iff_mem_and_forall.mp hmin).1, rfl⟩
  · obtain ⟨⟨weight, lightest⟩, hmin, heq⟩ := Option.map_eq_some_iff.mp hpick
    cases heq
    obtain ⟨hage, hweight⟩ :=
      (h.weighed _).mp (Std.TreeSet.min?_eq_some_iff_mem_and_forall.mp hmin).1
    dsimp only at hweight
    subst hweight
    exact ⟨hage, rfl⟩

/-- A selection fails only when nothing is passive. -/
theorem not_mem_byAge (h : Indexed s) (hpick : s.pick = none) (id : Nat) : id ∉ s.byAge := by
  intro hid
  unfold Saturation.pick at hpick
  dsimp only at hpick
  split at hpick
  · rw [Option.map_eq_none_iff] at hpick
    have hsome := Std.TreeSet.isSome_min?_of_mem hid
    rw [hpick] at hsome
    cases hsome
  · rw [Option.map_eq_none_iff] at hpick
    have hweighed := (h.weighed (priority (s.clause id), id)).mpr ⟨hid, rfl⟩
    have hsome := Std.TreeSet.isSome_min?_of_mem hweighed
    rw [hpick] at hsome
    cases hsome

end Indexed

end Saturation

end Entailment
