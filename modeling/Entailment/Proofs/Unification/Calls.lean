import Entailment.Proofs.Unification.MostGeneral

/-! Unification ends. Here its calls and the loops inside them have no bound: a
derivation tells all calls that are made, in order, and there is one for any two terms
if the substitution at the start is settled. All bindings on the way are settled then,
so that resolving a term takes a single round. -/
namespace Entailment

namespace Substitution

variable {s s' : Substitution} {t u v w : Term} {x : Symbol}

/-- Instantiates once more after the other, until nothing changes. -/
inductive Resolves (s : Substitution) : Term → Term → Prop
  | stop {t : Term} (h : t.instantiate s = t) : Resolves s t t
  | again {t v : Term} (h : t.instantiate s ≠ t) (hrest : Resolves s (t.instantiate s) v) :
      Resolves s t v

theorem Resolves.unique (h : Resolves s t v) (h' : Resolves s t w) : v = w := by
  induction h with
  | stop hstop =>
    cases h' with
    | stop => rfl
    | again hagain => exact absurd hstop hagain
  | again hagain _ ih =>
    cases h' with
    | stop hstop => exact absurd hstop hagain
    | again _ hrest => exact ih hrest

theorem Settled.resolves_iff (hs : s.Settled) :
    Resolves s (t.instantiate s) v ↔ v = t.instantiate s := by
  have hstop := hs.instantiate_instantiate t
  constructor
  · rintro (- | hagain)
    · rfl
    · exact absurd hstop hagain
  · rintro rfl
    exact .stop hstop

/-- Binds a variable that has no binding yet to a resolved term. -/
def attach (s : Substitution) (x : Symbol) (v : Term) : Except UnifyError Substitution :=
  if v = .var x then .ok s
  else if v.hasVar x then .error (.occurs x v)
  else .ok (s.bind x v)

theorem solve_eq_attach (s : Substitution) (x : Symbol) (t : Term) :
    s.solve x t = s.attach x (s.resolve t) := rfl

/-- Terms that are no variables and differ at their heads. -/
def Clashing : Term → Term → Prop
  | .const c, .const d => c ≠ d
  | .const _, .app .. => True
  | .app .., .const _ => True
  | .app f ts, .app g us => ¬ (f = g ∧ ts.length = us.length)
  | _, _ => False

/-- What a single call comes to: an error, or pairs that are to be unified by further
calls, starting from the bindings that it passes on. -/
inductive Next (s : Substitution) :
    Term → Term → Except UnifyError (List (Term × Term) × Substitution) → Prop
  | sameVariable (x : Symbol) : Next s (.var x) (.var x) (.ok ([], s))
  | followLeft {x : Symbol} {b u : Term} (hne : u ≠ .var x) (hb : s.get? x = some b) :
      Next s (.var x) u (.ok ([(b, u)], s))
  | followRight {y : Symbol} {b t : Term} (hne : t ≠ .var y) (ht : s.Loose t)
      (hb : s.get? y = some b) : Next s t (.var y) (.ok ([(t, b)], s))
  | bindLeft {x : Symbol} {u v : Term} (hne : u ≠ .var x) (hx : s.get? x = none) (hu : s.Loose u)
      (hv : Resolves s (u.instantiate s) v) : Next s (.var x) u ((s.attach x v).map ([], ·))
  | bindRight {y : Symbol} {t v : Term} (ht : t.isVar = false) (hy : s.get? y = none)
      (hv : Resolves s (t.instantiate s) v) : Next s t (.var y) ((s.attach y v).map ([], ·))
  | sameConstant (c : Symbol) : Next s (.const c) (.const c) (.ok ([], s))
  | arguments {f : Symbol} {ts us : List Term} (hlen : ts.length = us.length) :
      Next s (.app f ts) (.app f us) (.ok (ts.zip us, s))
  | clash {t u v w : Term} (h : Clashing t u) (hv : Resolves s (t.instantiate s) v)
      (hw : Resolves s (u.instantiate s) w) : Next s t u (.error (.clash v w))

/-- The conditions of different moves exclude each other. -/
theorem Next.unique {result result' : Except UnifyError (List (Term × Term) × Substitution)}
    (h : Next s t u result) (h' : Next s t u result') : result = result' := by
  cases h with
  | sameVariable => cases h' <;> simp_all [Clashing, Term.isVar]
  | followLeft | followRight => cases h' <;> simp_all [Loose, Clashing, Term.isVar]
  | bindLeft _ _ _ hv =>
    cases h' with
    | bindLeft _ _ _ hv' => rw [hv.unique hv']
    | _ => simp_all [Loose, Clashing, Term.isVar]
  | bindRight _ _ hv =>
    cases h' with
    | bindRight _ _ hv' => rw [hv.unique hv']
    | _ => simp_all [Clashing, Term.isVar]
  | sameConstant | arguments => cases h' <;> simp_all [Clashing]
  | clash _ hv hw =>
    cases h' with
    | clash _ hv' hw' => rw [hv.unique hv', hw.unique hw']
    | _ => simp_all [Clashing, Term.isVar]

/-- A call of unification, with the bindings it starts from. -/
structure Call where
  left : Term
  right : Term
  bindings : Substitution

/-- Unifies pair after pair until one fails. All calls that are made are listed, those
that a call makes itself right after it. -/
inductive Unfolds : List (Term × Term) → Substitution → List Call →
    Except UnifyError Substitution → Prop
  | done (s : Substitution) : Unfolds [] s [] (.ok s)
  | fail {s t u rest e} (hnext : Next s t u (.error e)) :
      Unfolds ((t, u) :: rest) s [⟨t, u, s⟩] (.error e)
  | failWithin {s t u rest pairs s₁ calls e} (hnext : Next s t u (.ok (pairs, s₁)))
      (hwithin : Unfolds pairs s₁ calls (.error e)) :
      Unfolds ((t, u) :: rest) s (⟨t, u, s⟩ :: calls) (.error e)
  | goOn {s t u rest pairs s₁ calls s₂ more r} (hnext : Next s t u (.ok (pairs, s₁)))
      (hwithin : Unfolds pairs s₁ calls (.ok s₂)) (hrest : Unfolds rest s₂ more r) :
      Unfolds ((t, u) :: rest) s (⟨t, u, s⟩ :: calls ++ more) r

section Calls

variable {n : Nat} {r : Except UnifyError Substitution} {calls : List Call}
  {pairs : List (Term × Term)} {result : Except UnifyError (List (Term × Term) × Substitution)}

theorem Unfolds.unique {calls' : List Call} {r' : Except UnifyError Substitution}
    (h : Unfolds pairs s calls r) (h' : Unfolds pairs s calls' r') : calls = calls' ∧ r = r' := by
  induction h generalizing calls' r' with
  | done s =>
    cases h'
    exact ⟨rfl, rfl⟩
  | fail hnext =>
    cases h' with
    | fail hnext' =>
      cases hnext.unique hnext'
      exact ⟨rfl, rfl⟩
    | failWithin hnext' | goOn hnext' => cases hnext.unique hnext'
  | failWithin hnext hwithin ih =>
    cases h' with
    | fail hnext' => cases hnext.unique hnext'
    | failWithin hnext' hwithin' =>
      cases hnext.unique hnext'
      obtain ⟨rfl, heq⟩ := ih hwithin'
      exact ⟨rfl, heq⟩
    | goOn hnext' hwithin' =>
      cases hnext.unique hnext'
      cases (ih hwithin').2
  | goOn hnext hwithin _ ih ihrest =>
    cases h' with
    | fail hnext' => cases hnext.unique hnext'
    | failWithin hnext' hwithin' =>
      cases hnext.unique hnext'
      cases (ih hwithin').2
    | goOn hnext' hwithin' hrest' =>
      cases hnext.unique hnext'
      obtain ⟨rfl, heq⟩ := ih hwithin'
      cases heq
      obtain ⟨rfl, rfl⟩ := ihrest hrest'
      exact ⟨rfl, rfl⟩

/-- Goes on with what a single call has left to do. -/
def resume (one : Term → Term → Substitution → Option (Except UnifyError Substitution)) :
    Except UnifyError (List (Term × Term) × Substitution) → Option (Except UnifyError Substitution)
  | .error e => some (.error e)
  | .ok (pairs, s) => unifyAll one (pairs.map Prod.fst) (pairs.map Prod.snd) s

theorem unifyAll_singleton
    (one : Term → Term → Substitution → Option (Except UnifyError Substitution)) (t u : Term)
    (s : Substitution) : unifyAll one [t] [u] s = one t u s := by
  rw [unifyAll]
  split
  · exact Eq.symm ‹_›
  · rfl

theorem resume_attach (hs : s.Settled) (hv : Resolves s (t.instantiate s) v)
    (one : Term → Term → Substitution → Option (Except UnifyError Substitution)) :
    resume one ((s.attach x v).map ([], ·)) = some (s.solve x t) := by
  rw [solve_eq_attach, hs.resolve_eq, ← hs.resolves_iff.mp hv]
  cases s.attach x v <;> rfl

/-- A call does what is said of it, and makes the calls that are left with one level
less. -/
theorem Next.unifyWithin_succ (hs : s.Settled) (h : Next s t u result) (n : Nat) :
    unifyWithin (n + 1) t u s = resume (unifyWithin n) result := by
  -- The kinds of calls are the branches of the algorithm. Where a side is not pinned down by
  -- its kind, its constructors are gone through to reach the branch.
  cases h with
  | sameVariable x => rw [unifyWithin, if_pos rfl]; rfl
  | followLeft hne hb =>
    refine Eq.trans ?_ (unifyAll_singleton _ _ _ _).symm
    cases u <;> simp only [unifyWithin, if_neg hne, hb]
  | @followRight y b t hne ht hb =>
    refine Eq.trans ?_ (unifyAll_singleton _ _ _ _).symm
    cases t with
    | var x => rw [unifyWithin, if_neg (Ne.symm hne), ht x rfl]; simp only [hb]
    | const c | app f ts => rw [unifyWithin, hb]; simp
  | @bindLeft x u v hne hx hu hv =>
    rw [resume_attach hs hv]
    cases u with
    | var y => rw [unifyWithin, if_neg hne, hx]; simp only [hu y rfl]
    | const c | app f ts => rw [unifyWithin, if_neg hne, hx]; simp
  | @bindRight y t v ht hy hv =>
    rw [resume_attach hs hv]
    cases t with
    | var x => cases ht
    | const c | app f ts => rw [unifyWithin, hy]; simp
  | sameConstant c => rw [unifyWithin, if_pos rfl]; rfl
  | arguments hlen =>
    rw [unifyWithin, if_pos ⟨rfl, hlen⟩, resume, List.map_fst_zip hlen.le, List.map_snd_zip hlen.ge]
  | @clash t u v w hclash hv hw =>
    have hresume : resume (unifyWithin n) (.error (.clash v w)) = some (s.clash t u) := by
      rw [Substitution.clash, hs.resolve_eq, hs.resolve_eq, ← hs.resolves_iff.mp hv,
        ← hs.resolves_iff.mp hw]
      rfl
    rw [hresume]
    cases t with
    | var x => cases u <;> cases hclash
    | const c =>
      cases u with
      | var y => cases hclash
      | const d => rw [unifyWithin, if_neg hclash]
      | app g us => rw [unifyWithin] <;> simp
    | app f ts =>
      cases u with
      | var y => cases hclash
      | const d => rw [unifyWithin] <;> simp
      | app g us => rw [unifyWithin, if_neg hclash]

theorem exists_next_var (hs : s.Settled) (x : Symbol) (u : Term) :
    ∃ result, Next s (.var x) u result := by
  have hresolves (t : Term) : Resolves s (t.instantiate s) (t.instantiate s) :=
    hs.resolves_iff.mpr rfl
  by_cases hne : u = .var x
  · subst hne
    exact ⟨_, .sameVariable x⟩
  cases hx : s.get? x with
  | some b => exact ⟨_, .followLeft hne hx⟩
  | none =>
    by_cases hu : s.Loose u
    · exact ⟨_, .bindLeft hne hx hu (hresolves u)⟩
    · simp only [Loose, not_forall] at hu
      obtain ⟨y, rfl, hy⟩ := hu
      obtain ⟨b, hb⟩ := Option.ne_none_iff_exists'.mp hy
      refine ⟨_, .followRight (Ne.symm hne) ?_ hb⟩
      rintro z ⟨⟩
      exact hx

/-- Every call comes to something, as resolving terms comes to an end. -/
theorem exists_next (hs : s.Settled) (t u : Term) : ∃ result, Next s t u result := by
  have hresolves (t : Term) : Resolves s (t.instantiate s) (t.instantiate s) :=
    hs.resolves_iff.mpr rfl
  have hclash (h : Clashing t u) : ∃ result, Next s t u result :=
    ⟨_, .clash h (hresolves t) (hresolves u)⟩
  have hright (y : Symbol) (ht : t.isVar = false) : ∃ result, Next s t (.var y) result := by
    cases hy : s.get? y with
    | some b =>
      refine ⟨_, .followRight ?_ ?_ hy⟩
      · rintro rfl
        cases ht
      · rintro x rfl
        cases ht
    | none => exact ⟨_, .bindRight ht hy (hresolves t)⟩
  cases t with
  | var x => exact exists_next_var hs x u
  | const c =>
    cases u with
    | var y => exact hright y rfl
    | const d =>
      by_cases hcd : c = d
      · subst hcd
        exact ⟨_, .sameConstant c⟩
      · exact hclash hcd
    | app g us => exact hclash trivial
  | app f ts =>
    cases u with
    | var y => exact hright y rfl
    | const d => exact hclash trivial
    | app g us =>
      by_cases hheads : f = g ∧ ts.length = us.length
      · obtain ⟨rfl, hlen⟩ := hheads
        exact ⟨_, .arguments hlen⟩
      · exact hclash hheads

theorem settled_of_attach (hs : s.Settled) (hx : s.get? x = none)
    (hv : Resolves s (t.instantiate s) v)
    (h : (s.attach x v).map (([], ·) : Substitution → List (Term × Term) × Substitution) =
      .ok (pairs, s')) : s'.Settled := by
  have hexact := solve_exact hs hx t
  rw [solve_eq_attach, hs.resolve_eq, ← hs.resolves_iff.mp hv] at hexact
  cases hattach : s.attach x v with
  | error e =>
    rw [hattach] at h
    cases h
  | ok s₁ =>
    rw [hattach] at h hexact
    cases h
    exact hexact.1

/-- The bindings that a call passes on are settled. -/
theorem Next.settled (hs : s.Settled) (h : Next s t u (.ok (pairs, s'))) : s'.Settled := by
  generalize hresult : Except.ok (pairs, s') = result at h
  cases h with
  | sameVariable | followLeft | followRight | sameConstant | arguments =>
    cases hresult
    exact hs
  | bindLeft _ hx _ hv => exact settled_of_attach hs hx hv hresult.symm
  | bindRight _ hy hv => exact settled_of_attach hs hy hv hresult.symm
  | clash => cases hresult

/-- Every call starts from settled bindings. -/
theorem Unfolds.settled (h : Unfolds pairs s calls r) (hs : s.Settled) :
    (∀ c ∈ calls, c.bindings.Settled) ∧ ∀ s', r = .ok s' → s'.Settled := by
  induction h with
  | done s =>
    refine ⟨nofun, ?_⟩
    rintro _ ⟨⟩
    exact hs
  | fail => exact ⟨List.forall_mem_singleton.mpr hs, nofun⟩
  | failWithin hnext _ ih =>
    obtain ⟨hcalls, -⟩ := ih (hnext.settled hs)
    exact ⟨List.forall_mem_cons.mpr ⟨hs, hcalls⟩, nofun⟩
  | goOn hnext _ _ ih ihrest =>
    obtain ⟨hcalls, hs₂⟩ := ih (hnext.settled hs)
    obtain ⟨hmore, hend⟩ := ihrest (hs₂ _ rfl)
    refine ⟨List.forall_mem_cons.mpr ⟨hs, List.forall_mem_append.mpr ⟨hcalls, hmore⟩⟩, hend⟩

/-- A depth of as many levels as there are calls suffices. -/
theorem Unfolds.unifyAll_eq (h : Unfolds pairs s calls r) (hs : s.Settled)
    (hn : calls.length ≤ n) :
    unifyAll (unifyWithin n) (pairs.map Prod.fst) (pairs.map Prod.snd) s = some r := by
  induction h generalizing n with
  | done s => rfl
  | @fail s t u rest e hnext =>
    obtain ⟨n, rfl⟩ := Nat.exists_eq_add_one.mpr hn
    rw [List.map_cons, List.map_cons, unifyAll, hnext.unifyWithin_succ hs]
    rfl
  | @failWithin s t u rest pairs s₁ calls e hnext _ ih =>
    obtain ⟨n, rfl⟩ := Nat.exists_eq_add_one.mpr (Nat.zero_lt_of_lt hn)
    have hwithin := ih (hnext.settled hs) (Nat.le_of_succ_le_succ hn)
    rw [List.map_cons, List.map_cons, unifyAll, hnext.unifyWithin_succ hs, resume, hwithin]
  | @goOn s t u rest pairs s₁ calls s₂ more r hnext hcalls _ ih ihrest =>
    have hlength : calls.length + more.length + 1 ≤ n := by simpa using hn
    obtain ⟨n, rfl⟩ := Nat.exists_eq_add_one.mpr (by omega : 0 < n)
    have hs₁ := hnext.settled hs
    have hwithin := ih hs₁ (n := n) (by omega)
    have hrest := ihrest ((hcalls.settled hs₁).2 _ rfl) (n := n + 1) (by omega)
    rw [List.map_cons, List.map_cons, unifyAll, hnext.unifyWithin_succ hs, resume, hwithin]
    exact hrest

theorem Unfolds.append {more : List Call} {rest : List (Term × Term)}
    (h : Unfolds pairs s calls (.ok s')) (hrest : Unfolds rest s' more r) :
    Unfolds (pairs ++ rest) s (calls ++ more) r := by
  generalize hend : Except.ok s' = result at h
  induction h with
  | done s =>
    cases hend
    exact hrest
  | fail | failWithin => cases hend
  | goOn hnext hwithin _ _ ih =>
    rw [List.append_assoc]
    exact .goOn hnext hwithin (ih hend)

theorem Unfolds.append_of_error {e : UnifyError} (h : Unfolds pairs s calls (.error e))
    (rest : List (Term × Term)) : Unfolds (pairs ++ rest) s calls (.error e) := by
  generalize hend : Except.error e = result at h ⊢
  induction h with
  | done s => cases hend
  | fail hnext => exact .fail hnext
  | failWithin hnext hwithin => exact .failWithin hnext hwithin
  | goOn hnext hwithin _ _ ih => exact .goOn hnext hwithin (ih hend)

theorem exists_unfolds_unifyAll
    {one : Term → Term → Substitution → Option (Except UnifyError Substitution)}
    (hone : ∀ {t u s r}, s.Settled → one t u s = some r → ∃ calls, Unfolds [(t, u)] s calls r)
    (hs : s.Settled) (h : unifyAll one (pairs.map Prod.fst) (pairs.map Prod.snd) s = some r) :
    ∃ calls, Unfolds pairs s calls r := by
  induction pairs generalizing s with
  | nil =>
    cases h
    exact ⟨[], .done s⟩
  | cons p pairs ih =>
    rw [List.map_cons, List.map_cons, unifyAll] at h
    split at h
    · rename_i s' hfirst
      obtain ⟨calls, hcalls⟩ := hone hs hfirst
      obtain ⟨more, hmore⟩ := ih ((hcalls.settled hs).2 _ rfl) h
      exact ⟨_, hcalls.append hmore⟩
    · rename_i hfail
      obtain ⟨calls, hcalls⟩ := hone hs h
      cases r with
      | ok s' => exact absurd h (hfail s')
      | error e => exact ⟨calls, hcalls.append_of_error pairs⟩

/-- What a call comes to within some depth is what it comes to without a bound. -/
theorem exists_unfolds (hs : s.Settled) (h : unifyWithin n t u s = some r) :
    ∃ calls, Unfolds [(t, u)] s calls r := by
  induction n generalizing t u s r with
  | zero => cases h
  | succ n ih =>
    obtain ⟨result, hnext⟩ := exists_next hs t u
    rw [hnext.unifyWithin_succ hs] at h
    cases result with
    | error e =>
      cases h
      exact ⟨_, .fail hnext⟩
    | ok p =>
      obtain ⟨calls, hcalls⟩ := exists_unfolds_unifyAll ih (hnext.settled hs) h
      cases r with
      | error e => exact ⟨_, .failWithin hnext hcalls⟩
      | ok s₂ => exact ⟨_, .goOn hnext hcalls (.done s₂)⟩

/-- From a settled substitution, unification makes finitely many calls, no matter how
deep they nest. There is one way to make them, with the result of `Term.unify`, and a
depth of as many levels suffices. Each call starts from settled bindings, so the loops
in it end with the term instantiated once, and the bindings at the end are settled. -/
theorem unify_terminates (hs : s.Settled) (t u : Term) :
    ∃ calls, Unfolds [(t, u)] s calls (t.unify u s) ∧
      (∀ calls' r, Unfolds [(t, u)] s calls' r → calls' = calls ∧ r = t.unify u s) ∧
      (∀ n, calls.length ≤ n → s.unifyWithin n t u = some (t.unify u s)) ∧
      (∀ c ∈ calls, c.bindings.Settled ∧ ∀ w v : Term,
        Resolves c.bindings (w.instantiate c.bindings) v ↔ v = w.instantiate c.bindings) ∧
      ∀ s', t.unify u s = .ok s' → s'.Settled := by
  obtain ⟨calls, hcalls⟩ := exists_unfolds hs (unifyWithin_eq_unify hs (t := t) (u := u) le_rfl)
  obtain ⟨hsettled, hend⟩ := hcalls.settled hs
  refine ⟨calls, hcalls, fun calls' r h => h.unique hcalls, fun n hn => ?_, fun c hc => ?_, hend⟩
  · exact (unifyAll_singleton _ t u s).symm.trans (hcalls.unifyAll_eq hs hn)
  · exact ⟨hsettled c hc, fun w v => (hsettled c hc).resolves_iff⟩

/-- `x` is bound to `f(y)`, where the first names are `x`, `y`, `f` and `c`. -/
def linked : Substitution := empty.bind ⟨0⟩ (.app ⟨2⟩ [.var ⟨1⟩])

/-- To unify `x` and `f(c)` takes three calls: one for these terms, one for `f(y)` and
`f(c)`, and one that binds `y`. -/
theorem unify_terminates_linked :
    linked.Settled ∧
    Unfolds [(.var ⟨0⟩, .app ⟨2⟩ [.const ⟨3⟩])] linked
      [⟨.var ⟨0⟩, .app ⟨2⟩ [.const ⟨3⟩], linked⟩,
        ⟨.app ⟨2⟩ [.var ⟨1⟩], .app ⟨2⟩ [.const ⟨3⟩], linked⟩, ⟨.var ⟨1⟩, .const ⟨3⟩, linked⟩]
      (.ok (linked.bind ⟨1⟩ (.const ⟨3⟩))) ∧
    (∀ n, 3 ≤ n → linked.unifyWithin n (.var ⟨0⟩) (.app ⟨2⟩ [.const ⟨3⟩]) =
      some (.ok (linked.bind ⟨1⟩ (.const ⟨3⟩)))) ∧
    (linked.bind ⟨1⟩ (.const ⟨3⟩)).Settled := by
  have hs : linked.Settled := settled_bind settled_empty (fun _ _ => rfl) (by decide)
  have hbind : Next linked (.var ⟨1⟩) (.const ⟨3⟩) (.ok ([], linked.bind ⟨1⟩ (.const ⟨3⟩))) :=
    .bindLeft (v := .const ⟨3⟩) (by decide) rfl nofun (.stop rfl)
  have hfollow : Next linked (.var ⟨0⟩) (.app ⟨2⟩ [.const ⟨3⟩])
      (.ok ([(.app ⟨2⟩ [.var ⟨1⟩], .app ⟨2⟩ [.const ⟨3⟩])], linked)) := .followLeft (by decide) rfl
  have hcalls := Unfolds.goOn hfollow
    (.goOn (.arguments rfl) (.goOn hbind (.done _) (.done _)) (.done _)) (.done _)
  obtain ⟨calls, -, hunique, hdepth, -, hend⟩ :=
    unify_terminates hs (.var ⟨0⟩) (.app ⟨2⟩ [.const ⟨3⟩])
  obtain ⟨rfl, hresult⟩ := hunique _ _ hcalls
  rw [← hresult] at hdepth hend
  exact ⟨hs, hcalls, hdepth, hend _ rfl⟩

end Calls

end Substitution

end Entailment
