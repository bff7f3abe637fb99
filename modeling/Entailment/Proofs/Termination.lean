import Entailment.Proofs.Completeness

/-! Searches over finitely many literals without variables come to an end. Such a
clause is its own canonical form, so it is stored at most once; every selection
takes another stored clause, and there are only finitely many. -/
namespace Entailment

open SessionM

namespace SessionM

variable {α β : Type}

/-- The horizon of the session stays where it is. -/
def Lasting (x : SessionM α) : Prop := ∀ t, (x t).2.horizon = t.horizon

theorem lasting_pure (a : α) : Lasting (pure a) := fun _ => rfl

theorem lasting_get : Lasting (get : SessionM Session) := fun _ => rfl

theorem lasting_note (n : Note) : Lasting (note n) := fun _ => rfl

theorem lasting_naming (x : Naming α) : Lasting (naming x) := fun _ => rfl

theorem Lasting.bind {x : SessionM α} {f : α → SessionM β} (hx : Lasting x)
    (hf : ∀ a, Lasting (f a)) : Lasting (x >>= f) :=
  fun t => (hf (x t).1 (x t).2).trans (hx t)

theorem lasting_ite {p : Prop} [Decidable p] {x y : SessionM α} (hx : Lasting x)
    (hy : Lasting y) : Lasting (if p then x else y : SessionM α) := by
  split
  · exact hx
  · exact hy

theorem lasting_foldlM {f : β → α → SessionM β} (h : ∀ b a, Lasting (f b a)) (as : List α)
    (b : β) : Lasting (as.foldlM f b) := by
  induction as generalizing b with
  | nil => exact lasting_pure b
  | cons a as ih => exact (h b a).bind ih

theorem lasting_forM {f : α → SessionM PUnit} (h : ∀ a, Lasting (f a)) (as : List α) :
    Lasting (as.forM f) := by
  induction as with
  | nil => exact lasting_pure _
  | cons a as ih => exact (h a).bind fun _ => ih

end SessionM

theorem Clausifier.lasting_clausify (f : Formula) (k : Clausifier) : Lasting (k.clausify f) := by
  unfold clausify
  cases f.validate with
  | error e => exact lasting_pure _
  | ok =>
    refine (lasting_naming _).bind fun _ => (lasting_naming _).bind fun g => ?_
    refine (lasting_note _).bind fun _ => ?_
    cases g.1.clauses false with
    | error e => exact lasting_pure _
    | ok cs =>
      refine Lasting.bind ((lasting_forM (fun _ => lasting_note _) _).bind fun _ => lasting_pure _) ?_
      exact fun _ => (lasting_note _).bind fun _ => lasting_pure _

/-- Sorted clauses over `n` literals are at most `2 ^ n`. -/
theorem Clause.length_le_of_nodup {cs : List Clause} {L : Finset Literal} (hcs : cs.Nodup)
    (h : ∀ c ∈ cs, Increasing c.literals ∧ ∀ l ∈ c.literals, l ∈ L) : cs.length ≤ 2 ^ L.card :=
  calc cs.length = cs.toFinset.card := (List.toFinset_card_of_nodup hcs).symm
    _ ≤ L.powerset.card := by
      refine Finset.card_le_card_of_injOn (fun c => c.literals.toFinset) ?_ ?_
      · intro c hc
        refine Finset.mem_coe.mpr (Finset.mem_powerset.mpr fun l hl => ?_)
        exact (h c (List.mem_toFinset.mp hc)).2 l (List.mem_toFinset.mp hl)
      · intro c hc d hd heq
        refine Clause.eq_of_mem_iff (h c (List.mem_toFinset.mp hc)).1
          (h d (List.mem_toFinset.mp hd)).1 fun l => ?_
        rw [← List.mem_toFinset, ← List.mem_toFinset]
        exact Finset.ext_iff.mp heq l
    _ = 2 ^ L.card := Finset.card_powerset L

namespace Saturation

variable {P : Clause → Prop} {σ τ : Symbols} {cs : List Clause} {c : Clause} {s s' : Saturation}
  {t : Session} {limits : Limits}

theorem lasting_insert (c : Clause) (s : Saturation) : Lasting (insert c s) := by
  unfold insert
  refine lasting_ite (lasting_pure _) (lasting_ite ((lasting_note _).bind fun _ => lasting_pure _) ?_)
  refine lasting_get.bind fun _ => lasting_ite (lasting_pure _) ?_
  refine (lasting_naming _).bind fun _ => ?_
  refine lasting_ite ((lasting_note _).bind fun _ => lasting_pure _) ?_
  refine lasting_ite ((lasting_note _).bind fun _ => lasting_pure _) ?_
  refine Lasting.bind ((lasting_naming _).bind fun _ => lasting_pure _) fun _ => ?_
  exact (lasting_note _).bind fun _ => lasting_pure _

theorem lasting_start (cs : List Clause) (limits : Limits) : Lasting (start cs limits) :=
  lasting_foldlM (fun s c => lasting_insert c s) cs _

theorem remaining_start (cs : List Clause) (limits : Limits) (t : Session) :
    (start cs limits t).1.remaining (start cs limits t).2.horizon =
      limits.maxIterations.getD t.horizon := by
  obtain ⟨-, hiterations, hlimits⟩ := unchanged_insertAll cs (init limits) t
  rw [remaining, lasting_start cs limits t, show (start cs limits t).1.limits = limits from hlimits,
    show (start cs limits t).1.iterations = 0 from hiterations, Nat.sub_zero]

/-- Every stored clause was looked at as it is, and none is stored twice. -/
structure Recorded (s : Saturation) : Prop where
  seen : ∀ c ∈ s.clauses, c ∈ s.seen
  nodup : s.clauses.toList.Nodup

theorem Recorded.insert (h : Recorded s) (hc : c.Normal) (hvars : c.vars = []) (t : Session) :
    Recorded (insert c s t).1 := by
  have hrename (ρ : Symbol → Symbol) : c.rename ρ = c := by
    refine Clause.under_eq_self hc fun x hx => ?_
    rw [hvars] at hx
    cases hx
  have hform : (c.canonical t.symbols).1 = c := by
    obtain ⟨ρ, -, heq⟩ := c.exists_canonical_eq_rename t.symbols
    rw [heq, hrename]
  have hsaw (d : Clause) (hd : d ∈ s.seen) (form : Clause) : d ∈ s.seen.insert form :=
    Std.TreeSet.mem_insert.mpr (.inr hd)
  have htaken := taken_insert c s t
  generalize (Saturation.insert c s t).1 = s' at htaken ⊢
  cases htaken with
  | contradiction | tautology | answer | duplicate => exact ⟨h.seen, h.nodup⟩
  | subsumed => exact ⟨fun d hd => hsaw d (h.seen d hd) _, h.nodup⟩
  | stored names counter hnames hempty htautology hanswer hnew =>
    rw [hform] at hnew ⊢
    rw [hrename]
    refine ⟨fun d hd => ?_, ?_⟩
    · rcases Array.mem_push.mp hd with hd | rfl
      · exact hsaw d (h.seen d hd) _
      · exact Std.TreeSet.mem_insert_self
    · change (s.clauses.push c).toList.Nodup
      rw [Array.toList_push, List.nodup_append]
      refine ⟨h.nodup, by simp, fun d hd e he heq => hnew ?_⟩
      rw [← List.mem_singleton.mp he, ← heq]
      exact h.seen d (Array.mem_toList_iff.mp hd)

theorem Recorded.insertAll (h : Recorded s) (hcs : ∀ c ∈ cs, c.Normal ∧ c.vars = [])
    (t : Session) : Recorded (insertAll cs s t).1 := by
  induction cs generalizing s t with
  | nil => exact h
  | cons c cs ih =>
    obtain ⟨hc, hcs⟩ := List.forall_mem_cons.mp hcs
    exact ih (h.insert hc.1 hc.2 t) hcs _

theorem Store.size_active_le (h : Store P σ s) : s.active.size ≤ s.clauses.size := by
  have hle : s.active.toList.length ≤ (List.range s.clauses.size).length :=
    h.distinct.length_le_of_subset fun id hid =>
      List.mem_range.mpr (h.active id (Array.mem_toList_iff.mp hid))
  simpa using hle

/-- Sorted clauses without variables over the literals of a finite set. -/
structure Finitary (σ : Symbols) (L : Finset Literal) (P : Clause → Prop) : Prop
    extends Tame σ P where
  vars : ∀ c, P c → c.vars = []
  literals : ∀ c, P c → ∀ l ∈ c.literals, l ∈ L

variable {L : Finset Literal}

theorem Finitary.room (hP : Finitary σ L P) (τ : Symbols) : Room P τ :=
  fun c hc => .inl (hP.vars c hc)

/-- The search from the clauses `cs` stores no clause twice. -/
def Counted (P : Clause → Prop) (σ : Symbols) (cs : List Clause) (limits : Limits) (τ : Symbols)
    (s : Saturation) : Prop :=
  Maintained P σ cs τ s ∧ Recorded s ∧ s.limits = limits

theorem Counted.select (hP : Finitary σ L P) (h : Counted P σ cs limits t.symbols s)
    (hselect : (select s t).1 = some s') :
    Counted P σ cs limits (select s t).2.symbols s' ∧ s'.active.size = s.active.size + 1 := by
  obtain ⟨hmaintained, hrecorded, hlimits⟩ := h
  have hmaintained' := (invariant_maintained hP.toTame cs).select hmaintained hselect
  have hstore := (hmaintained.2 (hP.room _)).1
  obtain ⟨id, hage, -, rfl, -⟩ := exists_of_select hstore.indexed hselect
  obtain ⟨hactive, -, hlimits'⟩ :=
    unchanged_insertAll (harvest id s t) (copied id s t).1.2 (copied id s t).2
  have hharvest (e : Clause) (he : e ∈ harvest id s t) : e.Normal ∧ e.vars = [] := by
    have hPe := hP.harvest hmaintained.1 hstore.toWithin (hstore.byAge id hage) e he
    exact ⟨hP.normal e hPe, hP.vars e hPe⟩
  have hcopied : Recorded (copied id s t).1.2 := ⟨hrecorded.seen, hrecorded.nodup⟩
  refine ⟨⟨hmaintained', hcopied.insertAll hharvest _, hlimits'.trans hlimits⟩, ?_⟩
  rw [hactive]
  exact Array.size_push id

theorem invariant_counted (hP : Finitary σ L P) (cs : List Clause) (limits : Limits) :
    Invariant (Counted P σ cs limits) where
  mono hle h := h.imp_left ((invariant_maintained hP.toTame cs).mono hle)
  drained h hrest hcontradiction :=
    ⟨(invariant_maintained hP.toTame cs).drained h.1 hrest hcontradiction,
      ⟨h.2.1.seen, h.2.1.nodup⟩, h.2.2⟩
  select h hselect := (h.select hP hselect).1

theorem counted_start (hP : Finitary t.symbols L P) (hcs : ∀ c ∈ cs, P c) (limits : Limits) :
    Counted P t.symbols cs limits (start cs limits t).2.symbols (start cs limits t).1 := by
  have hempty : Recorded (init limits) := ⟨fun c hc => by simp [init] at hc, List.nodup_nil⟩
  refine ⟨maintained_start hP.toTame hcs limits, hempty.insertAll (fun c hc => ?_) t, ?_⟩
  · exact ⟨hP.normal c (hcs c hc), hP.vars c (hcs c hc)⟩
  · exact (unchanged_insertAll cs (init limits) t).2.2

/-- There are no more active clauses than sets of literals. -/
theorem Counted.size_active_le (hP : Finitary σ L P) (h : Counted P σ cs limits τ s) :
    s.active.size ≤ 2 ^ L.card := by
  have hstore := (h.1.2 (hP.room _)).1
  refine hstore.size_active_le.trans (Clause.length_le_of_nodup h.2.1.nodup fun c hc => ?_)
  have hPc := hstore.clauses c (Array.mem_toList_iff.mp hc)
  exact ⟨(hP.normal c hPc).increasing, hP.literals c hPc⟩

/-- With selections enough for all of them, and without a timeout, the search does not
stop short of its end. -/
theorem Counted.pursueFor_ne_exhausted {β γ : Type} {listen : β → Clause → SessionM (β × Option γ)}
    (hlisten : ∀ b c, Grows (listen b c)) (hP : Finitary σ L P)
    (h : Counted P σ cs limits t.symbols s) (htimeout : limits.timeout = none) (n : Nat) (b : β)
    (hn : 2 ^ L.card < n + s.active.size) :
    (pursueFor listen n s b t).1.1 ≠ .ended .exhausted := by
  have hInv := invariant_counted hP cs limits
  have hrun := pursuit listen n s b t
  generalize pursueFor listen n s b t = r at hrun ⊢
  induction hrun with
  | report hdrain =>
    rintro rfl
    cases eq_contradiction_of_drain hdrain
  | exhausted =>
    have hle := h.size_active_le hP
    omega
  | @timedOut _ s _ _ _ _ _ htime =>
    have hlimits : s.limits = limits := h.2.2
    simp [isTimedOut, hlimits, htimeout] at htime
  | saturated => simp
  | @selected n s _ _ _ _ _ _ hdrain _ hselect _ ih =>
    obtain ⟨hs', hsize⟩ := (hInv.drain hlisten h hdrain (by simp)).select hP hselect
    refine ih hs' ?_
    rw [hsize]
    change 2 ^ L.card < n + (s.active.size + 1)
    omega

/-- So the search for a refutation ends with a contradiction or in saturation. -/
theorem refute_ne_exhausted (hP : Finitary t.symbols L P) (hcs : ∀ c ∈ cs, P c)
    (htimeout : limits.timeout = none)
    (hlimit : 2 ^ L.card < limits.maxIterations.getD t.horizon) :
    (refute cs limits t).1.1 ≠ .exhausted := by
  have hremaining := remaining_start cs limits t
  have hne := (counted_start hP hcs limits).pursueFor_ne_exhausted
    (fun (_ : Unit) _ => grows_pure ((), (none : Option Empty))) hP htimeout
    ((start cs limits t).1.remaining (start cs limits t).2.horizon) ()
    (by rw [hremaining]; exact Nat.lt_add_right _ hlimit)
  obtain ⟨e, s', t', hrun, hfinish⟩ :=
    exists_pursueFor_eq (start cs limits t).1 (start cs limits t).2
  rw [hrun] at hne
  rw [refute, hfinish]
  exact fun heq => hne (congrArg Report.ended heq)

end Saturation

end Entailment
