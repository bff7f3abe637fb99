import Entailment.Proofs.Binder

/-! The scope check is exact. It stops at the first fault, the collector of free variables
passes over the whole formula, and each keeps its own list of the binders around; still
they agree on what is free. A fault is what it is called: a variable that no quantifier
binds, or a quantifier in the scope of another one for the same name. -/
namespace Entailment

theorem bind_eq_ok_iff {ε α β : Type} {x : Except ε α} {f : α → Except ε β} {b : β} :
    (x >>= f) = .ok b ↔ ∃ a, x = .ok a ∧ f a = .ok b := by
  cases x with
  | error e => simp [bind, Except.bind]
  | ok a => simp [bind, Except.bind]

theorem bind_eq_error_iff {ε α β : Type} {x : Except ε α} {f : α → Except ε β} {e : ε} :
    (x >>= f) = .error e ↔ x = .error e ∨ ∃ a, x = .ok a ∧ f a = .error e := by
  cases x with
  | error e => simp [bind, Except.bind]
  | ok a => simp [bind, Except.bind]

namespace Term

theorem checkScopeAll_eq_ok_iff {scope : List Symbol} {ts : List Term} :
    checkScopeAll scope ts = .ok () ↔ ∀ t ∈ ts, t.checkScope scope = .ok () := by
  induction ts with
  | nil => simp [checkScopeAll]
  | cons t ts ih =>
    rw [checkScopeAll, bind_eq_ok_iff, List.forall_mem_cons, ih]
    exact ⟨fun ⟨_, ht, hts⟩ => ⟨ht, hts⟩, fun ⟨ht, hts⟩ => ⟨(), ht, hts⟩⟩

theorem checkScope_eq_ok_iff {scope : List Symbol} {t : Term} :
    t.checkScope scope = .ok () ↔ ∀ x, t.hasVar x = true → x ∈ scope := by
  induction t using rec_args with
  | var y =>
    rw [checkScope]
    split
    · rename_i hy
      simpa using hy
    · rename_i hy
      simpa using hy
  | const c => simp [checkScope]
  | app f args ih =>
    rw [checkScope, checkScopeAll_eq_ok_iff]
    simp only [hasVar_app]
    constructor
    · rintro h x ⟨t, ht, hx⟩
      exact (ih t ht).mp (h t ht) x hx
    · intro h t ht
      exact (ih t ht).mpr fun x hx => h x ⟨t, ht, hx⟩

theorem exists_of_checkScopeAll {scope : List Symbol} {ts : List Term} {e : ScopeError}
    (h : checkScopeAll scope ts = .error e) : ∃ t ∈ ts, t.checkScope scope = .error e := by
  induction ts with
  | nil => cases h
  | cons t ts ih =>
    rcases bind_eq_error_iff.mp h with ht | ⟨_, -, hts⟩
    · exact ⟨t, List.mem_cons_self, ht⟩
    · obtain ⟨u, hu, herror⟩ := ih hts
      exact ⟨u, List.mem_cons_of_mem t hu, herror⟩

/-- In a term the only fault is a variable out of scope. -/
theorem exists_of_checkScope {scope : List Symbol} {t : Term} {e : ScopeError}
    (h : t.checkScope scope = .error e) : ∃ x, e = .free x ∧ t.hasVar x = true ∧ x ∉ scope := by
  induction t using rec_args with
  | var y =>
    rw [checkScope] at h
    split at h
    · cases h
    · rename_i hy
      cases h
      exact ⟨y, rfl, by simp, by simpa using hy⟩
  | const c => cases h
  | app f args ih =>
    obtain ⟨t, ht, herror⟩ := exists_of_checkScopeAll h
    obtain ⟨x, rfl, hx, hscope⟩ := ih t ht herror
    exact ⟨x, rfl, (hasVar_app x f args).mpr ⟨t, ht, hx⟩, hscope⟩

end Term

namespace Formula

theorem mem_freeVars {f : Formula} {x : Symbol} : x ∈ f.freeVars ↔ f.Free x := by
  rw [freeVars_eq, mem_foldl_noteVar, mem_freeList, or_iff_right List.not_mem_nil]

/-- A quantifier for `x` stands in the scope of another one for `x`. -/
def Rebinds (x : Symbol) : Formula → Prop
  | .rel .. | .eq .. => False
  | .not f => f.Rebinds x
  | .and f g | .or f g | .imp f g | .iff f g => f.Rebinds x ∨ g.Rebinds x
  | .all y f | .ex y f => x = y ∧ x ∈ f.binders ∨ f.Rebinds x

/-- A quantifier for `x` is out of place below the binders `scope`: it stands in the scope
of one of them, or of another one in the formula. -/
def RebindsBelow (scope : List Symbol) (x : Symbol) (f : Formula) : Prop :=
  x ∈ scope ∧ x ∈ f.binders ∨ f.Rebinds x

/-- The result of the scope check is right about a formula below the binders `scope`. -/
def Explains (scope : List Symbol) (f : Formula) : Except ScopeError Unit → Prop
  | .ok _ => ∀ x, (f.Free x → x ∈ scope) ∧ ¬ f.RebindsBelow scope x
  | .error (.free x) => f.Free x ∧ x ∉ scope
  | .error (.rebound x) => f.RebindsBelow scope x

variable {scope scope' : List Symbol} {x y : Symbol} {f g : Formula}

/-- What is wrong with a part of a formula is wrong with the whole. -/
theorem Explains.error {e : ScopeError} (h : f.Explains scope (.error e))
    (hfree : ∀ x, f.Free x → x ∉ scope → g.Free x ∧ x ∉ scope')
    (hrebinds : ∀ x, f.RebindsBelow scope x → g.RebindsBelow scope' x) :
    g.Explains scope' (.error e) := by
  cases e with
  | free x => exact hfree x h.1 h.2
  | rebound x => exact hrebinds x h

theorem explains_checkScopeAll {ts : List Term}
    (hfree : ∀ x, f.Free x ↔ ∃ t ∈ ts, t.hasVar x = true)
    (hrebinds : ∀ x, ¬ f.RebindsBelow scope x) :
    f.Explains scope (Term.checkScopeAll scope ts) := by
  cases hresult : Term.checkScopeAll scope ts with
  | ok u =>
    refine fun x => ⟨fun hx => ?_, hrebinds x⟩
    obtain ⟨t, ht, hxt⟩ := (hfree x).mp hx
    exact Term.checkScope_eq_ok_iff.mp (Term.checkScopeAll_eq_ok_iff.mp hresult t ht) x hxt
  | error e =>
    obtain ⟨t, ht, herror⟩ := Term.exists_of_checkScopeAll hresult
    obtain ⟨x, rfl, hx, hscope⟩ := Term.exists_of_checkScope herror
    exact ⟨(hfree x).mpr ⟨t, ht, hx⟩, hscope⟩

/-- The check of two parts, from left to right. -/
theorem Explains.both {h : Formula} {r r' : Except ScopeError Unit} (hf : f.Explains scope r)
    (hg : g.Explains scope r') (hfree : ∀ x, h.Free x ↔ f.Free x ∨ g.Free x)
    (hrebinds : ∀ x, h.RebindsBelow scope x ↔ f.RebindsBelow scope x ∨ g.RebindsBelow scope x) :
    h.Explains scope (r >>= fun _ => r') := by
  cases r with
  | error e =>
    exact hf.error (fun x hx hscope => ⟨(hfree x).mpr (.inl hx), hscope⟩)
      fun x hx => (hrebinds x).mpr (.inl hx)
  | ok u =>
    cases r' with
    | error e =>
      exact hg.error (fun x hx hscope => ⟨(hfree x).mpr (.inr hx), hscope⟩)
        fun x hx => (hrebinds x).mpr (.inr hx)
    | ok u' =>
      refine fun x => ⟨fun hx => ?_, fun hx => ?_⟩
      · exact ((hfree x).mp hx).elim (hf x).1 (hg x).1
      · exact ((hrebinds x).mp hx).elim (hf x).2 (hg x).2

/-- The check of a quantifier: its name must be new, and is in scope below. -/
theorem Explains.below {h : Formula} {r : Except ScopeError Unit} (hf : f.Explains (y :: scope) r)
    (hfree : ∀ x, h.Free x ↔ x ≠ y ∧ f.Free x)
    (hrebinds : ∀ x, h.RebindsBelow scope x ↔ x = y ∧ x ∈ scope ∨ f.RebindsBelow (y :: scope) x) :
    h.Explains scope (if scope.contains y then .error (.rebound y) else r) := by
  split
  · rename_i hy
    exact (hrebinds y).mpr (.inl ⟨rfl, List.contains_iff_mem.mp hy⟩)
  · rename_i hy
    rw [List.contains_iff_mem] at hy
    cases r with
    | error e =>
      refine hf.error (fun x hx hscope => ?_) fun x hx => (hrebinds x).mpr (.inr hx)
      rw [List.mem_cons, not_or] at hscope
      exact ⟨(hfree x).mpr ⟨hscope.1, hx⟩, hscope.2⟩
    | ok u =>
      refine fun x => ⟨fun hx => ?_, fun hx => ?_⟩
      · obtain ⟨hne, hx⟩ := (hfree x).mp hx
        exact (List.mem_cons.mp ((hf x).1 hx)).resolve_left hne
      · rcases (hrebinds x).mp hx with ⟨rfl, hscope⟩ | hbody
        · exact hy hscope
        · exact (hf x).2 hbody

/-- The scope check is right below any binders. -/
theorem explains_checkScope (scope : List Symbol) (f : Formula) :
    f.Explains scope (f.checkScope scope) := by
  induction f generalizing scope with
  | rel r args =>
    exact explains_checkScopeAll (fun x => Iff.rfl) fun x => by simp [RebindsBelow, Rebinds, binders]
  | eq l r =>
    exact explains_checkScopeAll (fun x => by simp [Free])
      fun x => by simp [RebindsBelow, Rebinds, binders]
  | not f ih => exact ih scope
  | and f g ihf ihg | or f g ihf ihg | imp f g ihf ihg | iff f g ihf ihg =>
    refine (ihf scope).both (ihg scope) (fun x => Iff.rfl) fun x => ?_
    simp only [RebindsBelow, Rebinds, binders, List.mem_append]
    tauto
  | all y f ih | ex y f ih =>
    refine (ih (y :: scope)).below (fun x => Iff.rfl) fun x => ?_
    simp only [RebindsBelow, Rebinds, binders, List.mem_cons]
    tauto

/-- Accepted formulas are closed below the binders around them. -/
theorem mem_of_checkScope (h : f.checkScope scope = .ok ()) (hx : f.Free x) : x ∈ scope := by
  have hexplains := explains_checkScope scope f
  rw [h] at hexplains
  exact (hexplains x).1 hx

/-- Quantifiers in front are accepted if their names are new, and then they are in
scope. -/
theorem checkScope_foldr_all {xs : List Symbol} :
    (xs.foldr all f).checkScope scope = .ok () ↔
      xs.Nodup ∧ (∀ x ∈ xs, x ∉ scope) ∧ f.checkScope (xs.reverse ++ scope) = .ok () := by
  induction xs generalizing scope with
  | nil => simp
  | cons x xs ih =>
    rw [List.foldr_cons, checkScope]
    split
    · rename_i hx
      rw [List.contains_iff_mem] at hx
      simp [hx]
    · rename_i hx
      rw [List.contains_iff_mem] at hx
      have hnew : (∀ y ∈ xs, y ∉ x :: scope) ↔ x ∉ xs ∧ ∀ y ∈ xs, y ∉ scope := by
        simp only [List.mem_cons, not_or, forall_and]
        exact and_congr_left fun _ => ⟨fun h hmem => h x hmem rfl, fun h y hy heq => h (heq ▸ hy)⟩
      rw [ih, hnew, List.nodup_cons, List.forall_mem_cons, List.reverse_cons, List.append_assoc,
        List.singleton_append]
      simp only [hx, not_false_eq_true, true_and, and_assoc, and_left_comm]

theorem explains_validate (f : Formula) : f.Explains [] f.validate := explains_checkScope [] f

/-- An accepted formula is closed. -/
theorem not_free_of_validate (h : f.validate = .ok ()) (x : Symbol) : ¬ f.Free x :=
  fun hx => List.not_mem_nil (mem_of_checkScope h hx)

/-- A formula passes the scope check exactly if the collector finds no free variable in it
and no quantifier stands in the scope of another one for the same name. If it fails, the
variable that is called free is one that the collector finds, and the variable that is called
rebound has a quantifier in the scope of another one. -/
theorem validate_exact (f : Formula) :
    (f.validate = .ok () ↔ f.freeVars = [] ∧ ∀ x, ¬ f.Rebinds x) ∧
    (∀ x, f.validate = .error (.free x) → x ∈ f.freeVars) ∧
    ∀ x, f.validate = .error (.rebound x) → f.Rebinds x := by
  have hexplains := f.explains_validate
  have hbelow (x : Symbol) : f.RebindsBelow [] x ↔ f.Rebinds x := by simp [RebindsBelow]
  have hclosed : f.freeVars = [] ↔ ∀ x, ¬ f.Free x := by
    simp only [List.eq_nil_iff_forall_not_mem, mem_freeVars]
  refine ⟨?_, fun x h => ?_, fun x h => ?_⟩
  · rw [hclosed]
    constructor
    · intro h
      rw [h] at hexplains
      exact ⟨fun x hx => List.not_mem_nil ((hexplains x).1 hx),
        fun x hx => (hexplains x).2 ((hbelow x).mpr hx)⟩
    · -- Every other result names something that is not there.
      rintro ⟨hfree, hrebinds⟩
      rcases hresult : f.validate with (x | x) | u
      · rw [hresult] at hexplains
        exact absurd hexplains.1 (hfree x)
      · rw [hresult] at hexplains
        exact absurd ((hbelow x).mp hexplains) (hrebinds x)
      · rfl
  · rw [h] at hexplains
    exact mem_freeVars.mpr hexplains.1
  · rw [h] at hexplains
    exact (hbelow x).mp hexplains

/-- `(∀x. P(x)) ∧ ∃x. P(x)`. -/
def siblings : Formula :=
  .and (.all ⟨1⟩ (.rel ⟨0⟩ [.var ⟨1⟩])) (.ex ⟨1⟩ (.rel ⟨0⟩ [.var ⟨1⟩]))

/-- `∀x. ∃y. (P(y) ∨ ∃x. P(z))`: the second `x` comes before the free `z`. -/
def reboundBeforeFree : Formula :=
  .all ⟨1⟩ (.ex ⟨2⟩ (.or (.rel ⟨0⟩ [.var ⟨2⟩]) (.ex ⟨1⟩ (.rel ⟨0⟩ [.var ⟨3⟩]))))

/-- `∀x. (x = f(P, z) → ∃x. P(x))`: the free `z` comes before the second `x`. -/
def freeBeforeRebound : Formula :=
  .all ⟨1⟩ (.imp (.eq (.var ⟨1⟩) (.app ⟨4⟩ [.const ⟨0⟩, .var ⟨3⟩]))
    (.ex ⟨1⟩ (.rel ⟨0⟩ [.var ⟨1⟩])))

theorem validate_exact_siblings :
    siblings.validate = .ok () ∧ siblings.freeVars = [] ∧ (∀ x, ¬ siblings.Rebinds x) ∧
    freeBeforeRebound.validate = .error (.free ⟨3⟩) ∧ ⟨3⟩ ∈ freeBeforeRebound.freeVars ∧
    reboundBeforeFree.validate = .error (.rebound ⟨1⟩) ∧ reboundBeforeFree.Rebinds ⟨1⟩ := by
  have hok : siblings.validate = .ok () := rfl
  have hfree : freeBeforeRebound.validate = .error (.free ⟨3⟩) := rfl
  have hrebound : reboundBeforeFree.validate = .error (.rebound ⟨1⟩) := rfl
  obtain ⟨hclosed, hapart⟩ := (validate_exact siblings).1.mp hok
  exact ⟨hok, hclosed, hapart, hfree, (validate_exact _).2.1 _ hfree, hrebound,
    (validate_exact _).2.2 _ hrebound⟩

end Formula

end Entailment
