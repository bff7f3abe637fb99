import Entailment.Term.Basic

/-! The order of terms: variables before constants before applications, then by
symbol, then arguments from left to right with a shorter list first. It is a
total order whose equality is equality of terms. -/
namespace Entailment.Term

mutual

def cmp : Term → Term → Ordering
  | .var x, .var y => compare x y
  | .var _, _ => .lt
  | .const _, .var _ => .gt
  | .const c, .const d => compare c d
  | .const _, .app .. => .lt
  | .app f as, .app g bs => (compare f g).then (cmpAll as bs)
  | .app .., _ => .gt

def cmpAll : List Term → List Term → Ordering
  | [], [] => .eq
  | [], _ :: _ => .lt
  | _ :: _, [] => .gt
  | a :: as, b :: bs => (cmp a b).then (cmpAll as bs)

end

mutual

theorem cmp_self : ∀ a : Term, cmp a a = .eq
  | .var x => by simp [cmp]
  | .const c => by simp [cmp]
  | .app f as => by simp [cmp, cmpAll_self as]

theorem cmpAll_self : ∀ as : List Term, cmpAll as as = .eq
  | [] => rfl
  | a :: as => by simp [cmpAll, cmp_self a, cmpAll_self as]

end

mutual

theorem eq_of_cmp : ∀ {a b : Term}, cmp a b = .eq → a = b
  | .var x, .var y, h => by simpa [cmp] using h
  | .var _, .const _, h => by simp [cmp] at h
  | .var _, .app .., h => by simp [cmp] at h
  | .const _, .var _, h => by simp [cmp] at h
  | .const c, .const d, h => by simpa [cmp] using h
  | .const _, .app .., h => by simp [cmp] at h
  | .app .., .var _, h => by simp [cmp] at h
  | .app .., .const _, h => by simp [cmp] at h
  | .app f as, .app g bs, h => by
    simp only [cmp, Ordering.then_eq_eq, Std.compare_eq_iff_eq] at h
    rw [h.1, eq_of_cmpAll h.2]

theorem eq_of_cmpAll : ∀ {as bs : List Term}, cmpAll as bs = .eq → as = bs
  | [], [], _ => rfl
  | [], _ :: _, h => by simp [cmpAll] at h
  | _ :: _, [], h => by simp [cmpAll] at h
  | a :: as, b :: bs, h => by
    simp only [cmpAll, Ordering.then_eq_eq] at h
    rw [eq_of_cmp h.1, eq_of_cmpAll h.2]

end

mutual

theorem cmp_swap : ∀ a b : Term, cmp a b = (cmp b a).swap
  | .var x, .var y => by simp only [cmp]; exact Std.OrientedOrd.eq_swap
  | .var _, .const _ => rfl
  | .var _, .app .. => rfl
  | .const _, .var _ => rfl
  | .const c, .const d => by simp only [cmp]; exact Std.OrientedOrd.eq_swap
  | .const _, .app .. => rfl
  | .app .., .var _ => rfl
  | .app .., .const _ => rfl
  | .app f as, .app g bs => by
    simp only [cmp, Ordering.swap_then, ← cmpAll_swap as bs]
    rw [← Std.OrientedOrd.eq_swap (a := f)]

theorem cmpAll_swap : ∀ as bs : List Term, cmpAll as bs = (cmpAll bs as).swap
  | [], [] => rfl
  | [], _ :: _ => rfl
  | _ :: _, [] => rfl
  | a :: as, b :: bs => by
    simp only [cmpAll, Ordering.swap_then, ← cmpAll_swap as bs, ← cmp_swap a b]

end

/-- Lexicographic steps keep transitivity: both parts of the comparisons may be
chained, the first one also when it decides. -/
theorem isLE_then_trans {o₁ o₂ o₃ p₁ p₂ p₃ : Ordering}
    (hlt : (o₁ = .lt ∧ o₂.isLE ∨ o₁.isLE ∧ o₂ = .lt) → o₃ = .lt)
    (heq : o₁ = .eq → o₂ = .eq → o₃ = .eq)
    (hp : p₁.isLE → p₂.isLE → p₃.isLE)
    (h₁ : (o₁.then p₁).isLE) (h₂ : (o₂.then p₂).isLE) : (o₃.then p₃).isLE := by
  cases o₁ <;> cases o₂ <;> simp_all

theorem lt_of_chain {α : Type} {cmp : α → α → Ordering}
    (eq_of : ∀ {a b : α}, cmp a b = .eq → a = b) {a b c : α}
    (swap : cmp b a = (cmp a b).swap)
    (trans : (cmp a b).isLE → (cmp b c).isLE → (cmp a c).isLE)
    (h : cmp a b = .lt ∧ (cmp b c).isLE ∨ (cmp a b).isLE ∧ cmp b c = .lt) : cmp a c = .lt := by
  have hle : (cmp a c).isLE := by
    rcases h with ⟨h, h'⟩ | ⟨h, h'⟩
    · exact trans (by simp [h]) h'
    · exact trans h (by simp [h'])
  cases hac : cmp a c with
  | lt => rfl
  | gt => simp [hac] at hle
  | eq =>
    cases eq_of hac
    rw [swap] at h
    revert h
    cases cmp a b <;> simp

mutual

theorem cmp_trans : ∀ {a b c : Term}, (cmp a b).isLE → (cmp b c).isLE → (cmp a c).isLE
  | .var x, .var y, .var z, h, h' => by
    simp only [cmp] at h h' ⊢; exact Std.TransCmp.isLE_trans h h'
  | .var _, _, .const _, _, _ => rfl
  | .var _, _, .app .., _, _ => rfl
  | .const c, .const d, .const e, h, h' => by
    simp only [cmp] at h h' ⊢; exact Std.TransCmp.isLE_trans h h'
  | .const _, _, .app .., _, _ => rfl
  | .app f as, .app g bs, .app k cs, h, h' => by
    simp only [cmp] at h h' ⊢
    refine isLE_then_trans
      (lt_of_chain Std.LawfulEqOrd.eq_of_compare Std.OrientedOrd.eq_swap
        Std.TransCmp.isLE_trans) ?_
      cmpAll_trans h h'
    simp only [Std.compare_eq_iff_eq]
    exact Eq.trans
  | .var _, .const _, .var _, _, h' => by simp [cmp] at h'
  | .var _, .app .., .var _, _, h' => by simp [cmp] at h'
  | .const _, .var _, _, h, _ => by simp [cmp] at h
  | .const _, .app .., .const _, _, h' => by simp [cmp] at h'
  | .const _, .const _, .var _, _, h' => by simp [cmp] at h'
  | .const _, .app .., .var _, _, h' => by simp [cmp] at h'
  | .app .., .var _, _, h, _ => by simp [cmp] at h
  | .app .., .const _, _, h, _ => by simp [cmp] at h
  | .app .., .app .., .var _, _, h' => by simp [cmp] at h'
  | .app .., .app .., .const _, _, h' => by simp [cmp] at h'

theorem cmpAll_trans : ∀ {as bs cs : List Term},
    (cmpAll as bs).isLE → (cmpAll bs cs).isLE → (cmpAll as cs).isLE
  | [], _, [], _, _ => rfl
  | [], _, _ :: _, _, _ => rfl
  | _ :: _, [], _, h, _ => by simp [cmpAll] at h
  | _ :: _, _ :: _, [], _, h' => by simp [cmpAll] at h'
  | a :: as, b :: bs, c :: cs, h, h' => by
    simp only [cmpAll] at h h' ⊢
    refine isLE_then_trans
      (lt_of_chain eq_of_cmp (cmp_swap b a) cmp_trans) ?_
      cmpAll_trans h h'
    intro hab hbc
    rw [eq_of_cmp hab, eq_of_cmp hbc]
    exact cmp_self c

end

instance : Ord Term := ⟨cmp⟩

theorem compare_def (a b : Term) : compare a b = cmp a b := rfl

instance : Std.TransOrd Term where
  eq_swap := cmp_swap _ _
  isLE_trans := cmp_trans

instance : Std.LawfulEqOrd Term where
  compare_self := cmp_self _
  eq_of_compare := eq_of_cmp

instance : Std.TransCmp cmpAll where
  eq_swap := cmpAll_swap _ _
  isLE_trans := cmpAll_trans

instance : Std.LawfulEqCmp cmpAll where
  compare_self := cmpAll_self _
  eq_of_compare := eq_of_cmpAll

instance : DecidableEq Term := fun a b =>
  decidable_of_iff (cmp a b = .eq) ⟨eq_of_cmp, fun h => h ▸ cmp_self a⟩

instance : LT Term := ⟨fun a b => cmp a b = .lt⟩

instance (a b : Term) : Decidable (a < b) := inferInstanceAs (Decidable (cmp a b = .lt))

theorem lt_def {a b : Term} : a < b ↔ cmp a b = .lt := Iff.rfl

end Entailment.Term
