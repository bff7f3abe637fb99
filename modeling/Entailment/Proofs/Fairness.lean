import Entailment.Proofs.Course

/-! Fair selection. Every fifth selection takes the oldest passive clause, and clauses
that are taken in get larger numbers than all before them. So no clause waits for
longer than it takes to select everything older in this way. -/
namespace Entailment

namespace Saturation

variable {cs : List Clause} {s s' : Saturation} {t t' : Session} {limits : Limits} {first k : Nat}

/-- A selection adds one passive clause to the active ones, and when its turn has come
the oldest. -/
theorem exists_push_of_select (h : Coherent s) (hselect : (select s t).1 = some s') :
    ∃ id ∈ s.byAge, s'.active = s.active.push id ∧
      ((s.active.size + 1) % pickPeriod = 0 → ∀ n ∈ s.byAge, id ≤ n) := by
  obtain ⟨id, hid, hpick, rfl, -⟩ := exists_of_select h.toIndexed hselect
  refine ⟨id, hid, (unchanged_insertAll _ _ _).1, fun hturn => ?_⟩
  rw [← h.picks] at hturn
  exact le_of_pick hturn hpick

theorem size_le_of_select (h : Coherent s) (hselect : (select s t).1 = some s') :
    s.clauses.size ≤ s'.clauses.size := by
  obtain ⟨id, -, -, rfl, -⟩ := exists_of_select h.toIndexed hselect
  exact ((after_copied id s t).trans (after_insertAll _ _ _)).size

/-- The stored clause `k` is waited for since the selection number `first`: as long as
it was not selected, every turn of the oldest clause went to an older one. -/
structure Awaited (first k : Nat) (s : Saturation) : Prop extends Coherent s where
  stored : k < s.clauses.size
  turns : ∀ m, first ≤ m → m ≤ s.active.size → k ∉ s.active.toList.take m →
    m / pickPeriod ≤ first / pickPeriod + (s.active.toList.take m).countP (· < k)

theorem div_pickPeriod_succ (n : Nat) :
    (n + 1) / pickPeriod = n / pickPeriod + if (n + 1) % pickPeriod = 0 then 1 else 0 := by
  unfold pickPeriod
  split <;> omega

namespace Awaited

theorem of_passive (h : Coherent s) (hk : k ∈ s.byAge) : Awaited s.active.size k s where
  toCoherent := h
  stored := h.lt_of_byAge hk
  turns m hfirst hm _ := by
    rw [Nat.le_antisymm hm hfirst]
    exact Nat.le_add_right _ _

theorem select (h : Awaited first k s) (hselect : (select s t).1 = some s') :
    Awaited first k s' := by
  obtain ⟨id, hid, hactive, holdest⟩ := exists_push_of_select h.toCoherent hselect
  refine ⟨h.toCoherent.select hselect,
    h.stored.trans_le (size_le_of_select h.toCoherent hselect), fun m hfirst hm hmem => ?_⟩
  rw [hactive, Array.toList_push] at hmem ⊢
  rw [hactive, Array.size_push] at hm
  rcases Nat.le_or_eq_of_le_succ hm with hm | rfl
  · rw [List.take_append_of_le_length hm] at hmem ⊢
    exact h.turns m hfirst hm hmem
  rcases Nat.eq_or_lt_of_le hfirst with rfl | hfirst
  · exact Nat.le_add_right _ _
  -- the new selection is the last one of those that are looked at
  rw [List.take_of_length_le (by simp)] at hmem ⊢
  simp only [List.mem_append, List.mem_singleton, not_or] at hmem
  have hpassive : k ∈ s.byAge :=
    ((h.listed k).mpr h.stored).resolve_left fun hk => hmem.1 (Array.mem_toList_iff.mpr hk)
  have hturns := h.turns s.active.size (Nat.le_of_lt_succ hfirst) le_rfl
  rw [List.take_of_length_le (by simp)] at hturns
  have hturns := hturns hmem.1
  rw [div_pickPeriod_succ, List.countP_append, List.countP_singleton]
  split
  · have hlt : id < k := lt_of_le_of_ne (holdest ‹_› k hpassive) (Ne.symm hmem.2)
    simp only [hlt, decide_true, if_true]
    omega
  · omega

theorem steady (first k : Nat) : Steady fun _ s => Awaited first k s where
  mono _ h := h
  heard h _ := ⟨h.toCoherent.heard _, h.stored, h.turns⟩
  select h hselect := h.select hselect

/-- There are no more than `k` clauses older than `k`, so there comes its turn. -/
theorem mem_take (h : Awaited first k s) (hsize : first + pickPeriod * (k + 1) ≤ s.active.size) :
    k ∈ s.active.toList.take (first + pickPeriod * (k + 1)) := by
  by_contra hmem
  have hturns := h.turns _ (Nat.le_add_right _ _) hsize hmem
  have hdistinct := (h.distinct.sublist (List.take_sublist (first + pickPeriod * (k + 1)) _)).filter
    (fun n => decide (n < k))
  have holder : ∀ n ∈ (s.active.toList.take (first + pickPeriod * (k + 1))).filter
      (fun n => decide (n < k)), n ∈ List.range k := by
    simp
  have hcount := (hdistinct.subperm holder).length_le
  rw [← List.countP_eq_length_filter, List.length_range] at hcount
  rw [Nat.add_mul_div_left _ _ (by decide)] at hturns
  omega

end Awaited

/-- Selections are never undone. -/
theorem steady_active (s₀ : Saturation) :
    Steady fun _ s => Coherent s ∧ s₀.active.toList <+: s.active.toList where
  mono _ h := h
  heard h _ := ⟨h.1.heard _, h.2⟩
  select h hselect := by
    obtain ⟨id, -, hactive, -⟩ := exists_push_of_select h.1 hselect
    refine ⟨h.1.select hselect, h.2.trans ?_⟩
    rw [hactive, Array.toList_push]
    exact List.prefix_append _ _

/-- Whatever happens to a search, its passive clause `k` is among the next `5 * (k + 1)`
selections. -/
theorem mem_active_of_passive {t₀ : Session} (hstart : Steps (start cs limits t₀) (s, t))
    (hk : k ∈ s.byAge) (hsteps : Steps (s, t) (s', t'))
    (hselections : s.iterations + 5 * (k + 1) ≤ s'.iterations) :
    k ∈ (s'.active.toList.drop s.iterations).take (5 * (k + 1)) := by
  have hcoherent : Coherent s := steady_coherent.steps hstart (coherent_start cs limits t₀)
  have hawaited : Awaited s.active.size k s' :=
    (Awaited.steady _ k).steps hsteps (.of_passive hcoherent hk)
  obtain ⟨-, htaken⟩ : Coherent s' ∧ s.active.toList <+: s'.active.toList :=
    (steady_active s).steps hsteps ⟨hcoherent, List.prefix_rfl⟩
  rw [hcoherent.iterations] at hselections ⊢
  rw [hawaited.iterations] at hselections
  have hmem : k ∈ s'.active.toList.take (s.active.size + 5 * (k + 1)) :=
    hawaited.mem_take hselections
  rw [List.take_add] at hmem
  refine (List.mem_append.mp hmem).resolve_left fun hearlier => ?_
  have hbefore := List.prefix_iff_eq_take.mp htaken
  rw [Array.length_toList] at hbefore
  rw [← hbefore, Array.mem_toList_iff] at hearlier
  exact hcoherent.passive k hk hearlier

/-- The clause `{A, B}` and five lighter ones, none of which has anything to do with
another. -/
def heavyInput : List Clause :=
  ⟨[⟨.rel ⟨0⟩ [], false⟩, ⟨.rel ⟨1⟩ [], false⟩]⟩ ::
    [2, 3, 4, 5, 6].map fun r => ⟨[⟨.rel ⟨r⟩ [], false⟩]⟩

def heavyStart : Saturation × Session := start heavyInput ⟨some 5, none⟩ .new

theorem active_heavyStart : ((heavyStart.1.next heavyStart.2).1.2.active.toList.take 4,
    (heavyStart.1.next heavyStart.2).1.2.iterations) = ([1, 2, 3, 4], 5) := by
  cbv

/-- The heavy clause waits for four lighter ones and then has its turn. -/
theorem mem_active_of_passive_heavy :
    (heavyStart.1.next heavyStart.2).1.2.active.toList.take 4 = [1, 2, 3, 4] ∧
      0 ∈ ((heavyStart.1.next heavyStart.2).1.2.active.toList.drop 0).take 5 := by
  have hpassive : 0 ∈ heavyStart.1.byAge := by decide +kernel
  have hiterations : heavyStart.1.iterations = 0 := by decide +kernel
  obtain ⟨hlighter, hselections⟩ := Prod.mk.inj active_heavyStart
  have hsteps : Steps (heavyStart.1, heavyStart.2)
      ((heavyStart.1.next heavyStart.2).1.2, (heavyStart.1.next heavyStart.2).2) :=
    .single (.next _ _)
  have hstart : Steps heavyStart (heavyStart.1, heavyStart.2) := by rw [Prod.mk.eta]
  have hmem := mem_active_of_passive hstart hpassive hsteps
    (by rw [hiterations, hselections])
  rw [hiterations] at hmem
  exact ⟨hlighter, hmem⟩

end Saturation

end Entailment
