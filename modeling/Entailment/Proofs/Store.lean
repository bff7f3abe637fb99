import Entailment.Proofs.Bookkeeping
import Entailment.Proofs.Premises

/-! The clauses a search keeps. Every stored clause has variables of its own and
is active or passive, and every form that was looked at is covered by a stored
clause. Taking in a clause keeps this up, and afterwards the clause is a
tautology, an answer or the empty clause, or a stored one covers it. -/
namespace Entailment

open SessionM

/-- The table knows the relation of the atom. -/
def Atom.RelationIn (σ : Symbols) : Atom → Prop
  | .rel r _ => σ.Knows r
  | .eq .. => True

namespace Atom

variable {σ : Symbols} {a : Atom}

theorem relationIn_of_symbols (h : ∀ x ∈ a.symbols, σ.Knows x) : a.RelationIn σ := by
  cases a with
  | rel r args => exact h r List.mem_cons_self
  | eq l r => trivial

theorem relationIn_equation (l r : Term) : (equation l r).RelationIn σ := by
  unfold equation
  split <;> trivial

theorem relationIn_mapTerms {f : Term → Term} (h : a.RelationIn σ) :
    (a.mapTerms f).RelationIn σ := by
  cases a with
  | rel r args => exact h
  | eq l r => exact relationIn_equation _ _

theorem relationIn_replaceAt {path : List Nat} {t : Term} (h : a.RelationIn σ) :
    (a.replaceAt path t).RelationIn σ := by
  cases path with
  | nil => exact h
  | cons i path =>
    cases a with
    | rel r args => exact h
    | eq l r => exact relationIn_equation _ _

end Atom

/-- The table knows all relations of the clause. -/
def Clause.RelationsIn (σ : Symbols) (c : Clause) : Prop := ∀ l ∈ c.literals, l.atom.RelationIn σ

namespace Clause

variable {σ : Symbols} {c : Clause}

theorem isEmpty_iff : c.isEmpty = true ↔ ∀ l, l ∉ c.literals := by
  rw [isEmpty, List.isEmpty_iff, List.eq_nil_iff_forall_not_mem]

theorem isAnswer_iff : c.isAnswer σ = true ↔
    (∃ l, l ∈ c.literals) ∧ ∀ l ∈ c.literals, l.isAnswer σ = true := by
  rw [isAnswer, Bool.and_eq_true, List.all_eq_true, Bool.not_eq_true', ← Bool.not_eq_true,
    isEmpty_iff, not_forall_not]

theorem isEmpty_under {θ : Symbol → Term} : (c.under θ).isEmpty = true ↔ c.isEmpty = true := by
  rw [isEmpty_iff, isEmpty_iff]
  constructor
  · exact fun h l hl => h _ (under_mem_under hl)
  · intro h l hl
    obtain ⟨k, hk, -⟩ := mem_under.mp hl
    exact h k hk

theorem isAnswer_under (h : c.isAnswer σ = true) (θ : Symbol → Term) :
    (c.under θ).isAnswer σ = true := by
  rw [isAnswer_iff] at h ⊢
  obtain ⟨⟨l, hl⟩, hall⟩ := h
  refine ⟨⟨_, under_mem_under hl⟩, fun k hk => ?_⟩
  obtain ⟨m, hm, rfl⟩ := mem_under.mp hk
  rw [Literal.isAnswer_under, hall m hm]

end Clause

section Later

variable {σ τ : Symbols} (hτ : σ ≤ τ)

include hτ

theorem Literal.isAnswer_eq_of_le {l : Literal} (h : l.atom.RelationIn σ) :
    l.isAnswer τ = l.isAnswer σ := by
  obtain ⟨a, n⟩ := l
  cases a with
  | rel r args => simp only [isAnswer, Atom.isAnswer, Symbols.name_eq_of_le hτ h]
  | eq l r => rfl

namespace Clause

variable {c d : Clause}

theorem isAnswer_eq_of_le (h : c.RelationsIn σ) : c.isAnswer τ = c.isAnswer σ := by
  rw [Bool.eq_iff_iff, isAnswer_iff, isAnswer_iff]
  refine and_congr_right fun _ => forall₂_congr fun l hl => ?_
  rw [Literal.isAnswer_eq_of_le hτ (h l hl)]

theorem resolvents_eq_of_le (hc : c.RelationsIn σ) (hd : d.RelationsIn σ) :
    c.resolvents τ d = c.resolvents σ d := by
  unfold resolvents
  refine List.flatMap_congr fun (l, i) hl => ?_
  dsimp only
  rw [Literal.isAnswer_eq_of_le hτ (hc l (mem_of_mem_zipIdx hl))]
  congr 1
  refine List.flatMap_congr fun (k, j) hk => ?_
  dsimp only
  rw [Literal.isAnswer_eq_of_le hτ (hd k (mem_of_mem_zipIdx hk))]

theorem mergers_eq_of_le {ls : List Literal} (h : ∀ l ∈ ls, l.atom.RelationIn σ) :
    mergers τ ls = mergers σ ls := by
  induction ls with
  | nil => rfl
  | cons l ls ih =>
    have htail (k : Literal) (hk : k ∈ ls) := h k (List.mem_cons_of_mem l hk)
    rw [mergers, mergers, ih htail, Literal.isAnswer_eq_of_le hτ (h l List.mem_cons_self)]
    congr 2
    refine List.flatMap_congr fun k hk => ?_
    rw [Literal.isAnswer_eq_of_le hτ (htail k hk)]

theorem paramodulants_eq_of_le (hd : d.RelationsIn σ) :
    c.paramodulants τ d = c.paramodulants σ d := by
  unfold paramodulants
  refine List.flatMap_congr fun (e, i) _ => ?_
  dsimp only
  split
  · refine List.flatMap_congr fun (s, t) _ => List.flatMap_congr fun (k, j) hk => ?_
    dsimp only
    rw [Literal.isAnswer_eq_of_le hτ (hd k (mem_of_mem_zipIdx hk))]
  · rfl

end Clause

open Saturation

variable {c d : Clause}

theorem unaryConsequences_eq_of_le (hc : c.RelationsIn σ) :
    unaryConsequences τ c = unaryConsequences σ c := by
  simp only [unaryConsequences, Clause.factors, Clause.mergers_eq_of_le hτ hc]

theorem consequences_eq_of_le (hc : c.RelationsIn σ) (hd : d.RelationsIn σ) :
    consequences τ c d = consequences σ c d := by
  simp only [consequences, Clause.resolvents_eq_of_le hτ hc hd,
    Clause.paramodulants_eq_of_le hτ hc, Clause.paramodulants_eq_of_le hτ hd]

theorem selfConsequences_eq_of_le (hc : c.RelationsIn σ) (hd : d.RelationsIn σ) :
    selfConsequences τ c d = selfConsequences σ c d := by
  simp only [selfConsequences, Clause.resolvents_eq_of_le hτ hc hd,
    Clause.paramodulants_eq_of_le hτ hd]

end Later

theorem any_eq_any_toList {α : Type} {cmp : α → α → Ordering} (t : Std.TreeSet α cmp)
    (p : α → Bool) : t.any p = t.toList.any p := by
  have hloop : t.any p = (Id.run do
      for a in t do
        if p a then return true
      return false) := rfl
  rw [hloop, Std.TreeSet.forIn_eq_forIn_toList]
  generalize t.toList = l
  induction l with
  | nil => rfl
  | cons a l ih =>
    by_cases ha : p a = true
    · simp [ha]
    · simpa [ha] using ih

namespace Saturation

variable {P : Clause → Prop} {σ τ : Symbols} {c : Clause} {s s' : Saturation} {t : Session}

/-- A property of clauses over the table `σ` that no inference leaves. -/
structure Tame (σ : Symbols) (P : Clause → Prop) : Prop extends Deductive σ P where
  normal : ∀ c, P c → c.Normal
  relations : ∀ c, P c → c.RelationsIn σ

/-- New names for the variables of such clauses were available in the table. -/
def Room (P : Clause → Prop) (σ : Symbols) : Prop :=
  ∀ c, P c → c.vars = [] ∨ σ.size < UInt32.size

theorem Room.of_le (h : Room P τ) (hτ : σ ≤ τ) : Room P σ :=
  fun c hc => (h c hc).imp_right (Symbols.size_le hτ).trans_lt

/-- What holds of the clauses of a search when the table is `σ`. -/
structure Store (P : Clause → Prop) (σ : Symbols) (s : Saturation) : Prop extends Within P s where
  known : ∀ id < s.clauses.size, ∀ x ∈ (s.clause id).vars, σ.Knows x
  apart : ∀ i < s.clauses.size, ∀ j < s.clauses.size,
    ∀ x ∈ (s.clause i).vars, x ∈ (s.clause j).vars → i = j
  nonempty : ∀ id < s.clauses.size, ¬ (s.clause id).isEmpty = true
  /-- Both orders of the passive set list the same clauses. -/
  weighed : ∀ p ∈ s.byWeight, p.1 = priority (s.clause p.2) ∧ p.2 ∈ s.byAge
  aged : ∀ id ∈ s.byAge, (priority (s.clause id), id) ∈ s.byWeight
  passive : ∀ id ∈ s.byAge, id ∉ s.active
  distinct : s.active.toList.Nodup
  listed : ∀ id < s.clauses.size, id ∈ s.active ∨ id ∈ s.byAge
  seen : ∀ form ∈ s.seen, ∃ id < s.clauses.size, (s.clause id).Covers form

/-- The clause needs no more attention: it is redundant or was found. -/
def Accounted (σ : Symbols) (s : Saturation) (c : Clause) : Prop :=
  c.isTautology = true ∨ c.isAnswer σ = true ∨
    (∃ id < s.clauses.size, (s.clause id).Covers c) ∨
    (c.isEmpty = true ∧ .contradiction ∈ s.pending)

/-- Clauses stay stored and findings pending. -/
structure After (s s' : Saturation) : Prop where
  size : s.clauses.size ≤ s'.clauses.size
  clause : ∀ id < s.clauses.size, s'.clause id = s.clause id
  pending : ∀ f ∈ s.pending, f ∈ s'.pending

theorem After.refl (s : Saturation) : After s s := ⟨Nat.le_refl _, fun _ _ => rfl, fun _ h => h⟩

theorem After.trans {s'' : Saturation} (h : After s s') (h' : After s' s'') : After s s'' where
  size := h.size.trans h'.size
  clause id hid := (h'.clause id (hid.trans_le h.size)).trans (h.clause id hid)
  pending f hf := h'.pending f (h.pending f hf)

theorem Accounted.after (h : Accounted σ s c) (hs : After s s') : Accounted σ s' c := by
  refine h.imp_right (Or.imp_right (Or.imp ?_ ?_))
  · rintro ⟨id, hid, hcovers⟩
    exact ⟨id, hid.trans_le hs.size, by rwa [hs.clause id hid]⟩
  · exact fun h => ⟨h.1, hs.pending _ h.2⟩

/-- An instance with as many literals is accounted for together with the clause. -/
theorem Accounted.under (h : Accounted σ s c) (hc : c.Normal) {θ : Symbol → Term}
    (hsize : c.size ≤ (c.under θ).size) : Accounted σ s (c.under θ) := by
  refine h.imp (Clause.isTautology_under hc · θ) (Or.imp (Clause.isAnswer_under · θ) (Or.imp ?_ ?_))
  · rintro ⟨id, hid, hcovers⟩
    exact ⟨id, hid, hcovers.under hsize⟩
  · exact fun h => ⟨Clause.isEmpty_under.mpr h.1, h.2⟩

theorem after_of_taken (h : Taken σ c s s') : After s s' := by
  cases h with
  | contradiction | answer =>
    exact ⟨Nat.le_refl _, fun _ _ => rfl, fun f hf => List.mem_append_left _ hf⟩
  | tautology | duplicate | subsumed => exact ⟨Nat.le_refl _, fun _ _ => rfl, fun _ hf => hf⟩
  | stored names counter =>
    refine ⟨?_, fun id hid => ?_, fun _ hf => hf⟩
    · rw [size_store]
      exact Nat.le_succ _
    · exact clause_store_of_lt _ _ hid

theorem after_insert (c : Clause) (s : Saturation) (t : Session) : After s (insert c s t).1 :=
  after_of_taken (taken_insert c s t)

theorem after_insertAll (cs : List Clause) (s : Saturation) (t : Session) :
    After s (insertAll cs s t).1 := by
  induction cs generalizing s t with
  | nil => exact .refl s
  | cons c cs ih => exact (after_insert c s t).trans (ih _ _)

/-- Taking in clauses leaves the selection and the limits alone. -/
theorem unchanged_insert (c : Clause) (s : Saturation) (t : Session) :
    (insert c s t).1.active = s.active ∧ (insert c s t).1.iterations = s.iterations ∧
      (insert c s t).1.limits = s.limits := by
  have htaken := taken_insert c s t
  generalize (insert c s t).1 = s' at htaken ⊢
  cases htaken <;> exact ⟨rfl, rfl, rfl⟩

theorem unchanged_insertAll (cs : List Clause) (s : Saturation) (t : Session) :
    (insertAll cs s t).1.active = s.active ∧ (insertAll cs s t).1.iterations = s.iterations ∧
      (insertAll cs s t).1.limits = s.limits := by
  induction cs generalizing s t with
  | nil => exact ⟨rfl, rfl, rfl⟩
  | cons c cs ih =>
    obtain ⟨hactive, hiterations, hlimits⟩ := unchanged_insert c s t
    obtain ⟨hactive', hiterations', hlimits'⟩ := ih (insert c s t).1 (insert c s t).2
    exact ⟨hactive'.trans hactive, hiterations'.trans hiterations, hlimits'.trans hlimits⟩

namespace Store

theorem indexed (h : Store P σ s) : Indexed s where
  weighed p := by
    constructor
    · exact fun hp => (h.weighed p hp).symm
    · rintro ⟨hage, hweight⟩
      have hmem := h.aged p.2 hage
      rwa [← hweight] at hmem
  distinct := h.distinct
  passive := h.passive
  listed id := ⟨fun hid => hid.elim (h.active id) (h.byAge id), h.listed id⟩

theorem mono (h : Store P σ s) (hτ : σ ≤ τ) : Store P τ s :=
  { h with known := fun id hid x hx => (h.known id hid x hx).mono hτ }

theorem report (h : Store P σ s) {f : Finding} (hf : P f.clause) : Store P σ (s.report f) :=
  { h with toWithin := h.toWithin.report hf }

theorem saw (h : Store P σ s) {form : Clause}
    (hform : ∃ id < s.clauses.size, (s.clause id).Covers form) : Store P σ (s.saw form) := by
  refine { h with toWithin := h.toWithin.saw form, seen := fun f hf => ?_ }
  rcases Std.TreeSet.mem_insert.mp hf with heq | hf
  · rwa [← Std.LawfulEqCmp.eq_of_compare heq]
  · exact h.seen f hf

/-- A clause with new variables can be stored, and it covers the form it was looked
at in. -/
theorem store (h : Store P σ s) (hτ : σ ≤ τ) (hc : P c) (hempty : ¬ c.isEmpty = true)
    (hnew : ∀ x ∈ c.vars, ¬ σ.Knows x ∧ τ.Knows x) {form : Clause} (hform : c.Covers form)
    (counter : UInt32) : Store P τ (((s.saw form).counted counter).store c) := by
  have hsize : (((s.saw form).counted counter).store c).clauses.size = s.clauses.size + 1 :=
    size_store c _
  have hlast : (((s.saw form).counted counter).store c).clause s.clauses.size = c :=
    clause_store_size c _
  have hold {id : Nat} (hid : id < s.clauses.size) :
      (((s.saw form).counted counter).store c).clause id = s.clause id :=
    clause_store_of_lt c _ hid
  have hcases {id : Nat} (hid : id < s.clauses.size + 1) :
      id < s.clauses.size ∨ id = s.clauses.size := by omega
  have hindexed : Indexed (((s.saw form).counted counter).store c) := by
    obtain ⟨hweighed, hdistinct, hpassive, hlisted⟩ := h.indexed
    exact Indexed.store (s := (s.saw form).counted counter)
      ⟨hweighed, hdistinct, hpassive, hlisted⟩ c
  refine
    { toWithin := Within.store (s := (s.saw form).counted counter)
        ⟨h.clauses, h.pending, h.active, h.byWeight, h.byAge⟩ hc
      known := fun id hid x hx => ?_
      apart := fun i hi j hj x hxi hxj => ?_
      nonempty := fun id hid => ?_
      weighed := fun p hp => ((hindexed.weighed p).mp hp).symm
      aged := fun id hid => (hindexed.weighed _).mpr ⟨hid, rfl⟩
      passive := hindexed.passive
      distinct := h.distinct
      listed := fun id => (hindexed.listed id).mpr
      seen := fun f hf => ?_ }
  · rw [hsize] at hid
    rcases hcases hid with hid | rfl
    · rw [hold hid] at hx
      exact (h.known id hid x hx).mono hτ
    · rw [hlast] at hx
      exact (hnew x hx).2
  · -- The variables of the new clause are unknown to the table of the older clauses.
    rw [hsize] at hi hj
    rcases hcases hi with hi | rfl <;> rcases hcases hj with hj | rfl
    · rw [hold hi] at hxi
      rw [hold hj] at hxj
      exact h.apart i hi j hj x hxi hxj
    · rw [hold hi] at hxi
      rw [hlast] at hxj
      exact absurd (h.known i hi x hxi) (hnew x hxj).1
    · rw [hlast] at hxi
      rw [hold hj] at hxj
      exact absurd (h.known j hj x hxj) (hnew x hxi).1
    · rfl
  · rw [hsize] at hid
    rcases hcases hid with hid | rfl
    · rw [hold hid]
      exact h.nonempty id hid
    · rwa [hlast]
  · rw [hsize]
    rcases Std.TreeSet.mem_insert.mp hf with heq | hf
    · rw [← Std.LawfulEqCmp.eq_of_compare heq]
      exact ⟨s.clauses.size, Nat.lt_succ_self _, by rwa [hlast]⟩
    · obtain ⟨id, hid, hcovers⟩ := h.seen f hf
      exact ⟨id, Nat.lt_succ_of_lt hid, by rwa [hold hid]⟩

end Store

theorem Within.exists_subsumes (h : Within P s) (hsubsumed : s.isSubsumed c = true) :
    ∃ id < s.clauses.size, (s.clause id).subsumes c = true := by
  rw [isSubsumed, Bool.or_eq_true, any_eq_any_toList, ← Array.any_toList, List.any_eq_true,
    List.any_eq_true] at hsubsumed
  rcases hsubsumed with ⟨id, hid, hsub⟩ | ⟨id, hid, hsub⟩
  · exact ⟨id, h.active id (Array.mem_toList_iff.mp hid), hsub⟩
  · exact ⟨id, h.byAge id (Std.TreeSet.mem_toList.mp hid), hsub⟩

/-- Storing a clause makes the names of its copy. -/
theorem symbols_insert_of_stored (hempty : ¬ c.isEmpty = true) (htautology : ¬ c.isTautology = true)
    (hanswer : ¬ c.isAnswer t.symbols = true)
    (hnew : ¬ s.seen.contains (c.canonical t.symbols).1 = true)
    (hsubsumed : ¬ (s.saw (c.canonical t.symbols).1).isSubsumed c = true) :
    (insert c s t).2.symbols = (freshNames c.vars s.varCounter (c.canonical t.symbols).2).2 := by
  rw [insert_eq, if_neg hempty, if_neg htautology, if_neg hanswer]
  dsimp only
  rw [if_neg hnew, if_neg hsubsumed]
  rfl

theorem Store.insert (hP : Tame σ P) (hσ : σ ≤ t.symbols) (h : Store P t.symbols s) (hc : P c)
    (hroom : Room P (insert c s t).2.symbols) :
    Store P (insert c s t).2.symbols (insert c s t).1 ∧ Accounted σ (insert c s t).1 c := by
  have hnormal := hP.normal c hc
  obtain ⟨ρ, hρ, hform⟩ := c.exists_canonical_eq_rename t.symbols
  -- The forms are renamed copies, and a clause covers a copy as it covers the original.
  have hcovers {e : Clause} : e.Covers (c.canonical t.symbols).1 ↔ e.Covers c := by
    rw [hform]
    exact Clause.covers_rename_iff hnormal hρ
  have hkept := h.mono (grows_insert c s t)
  have htaken := taken_insert c s t
  generalize (Saturation.insert c s t).1 = s' at htaken ⊢
  cases htaken with
  | contradiction hempty =>
    have hfound : P Finding.contradiction.clause := by
      rwa [Clause.eq_empty_of_isEmpty hempty] at hc
    exact ⟨hkept.report hfound, .inr (.inr (.inr ⟨hempty, List.mem_append_right _ (by simp)⟩))⟩
  | tautology htautology => exact ⟨hkept, .inl htautology⟩
  | answer hanswer =>
    rw [Clause.isAnswer_eq_of_le hσ (hP.relations c hc)] at hanswer
    exact ⟨hkept.report hc, .inr (.inl hanswer)⟩
  | duplicate hseen =>
    obtain ⟨id, hid, hcov⟩ := h.seen _ (Std.TreeSet.mem_iff_contains.mpr hseen)
    exact ⟨hkept, .inr (.inr (.inl ⟨id, hid, hcovers.mp hcov⟩))⟩
  | subsumed hsubsumed =>
    obtain ⟨id, hid, hsub⟩ := (h.toWithin.saw _).exists_subsumes hsubsumed
    have hcov := Clause.covers_of_subsumes hnormal hsub
    exact ⟨hkept.saw ⟨id, hid, hcovers.mpr hcov⟩, .inr (.inr (.inl ⟨id, hid, hcov⟩))⟩
  | stored names counter hnames hempty htautology hanswer hnew hsubsumed =>
    have hsymbols := symbols_insert_of_stored hempty htautology hanswer hnew hsubsumed
    have hle := c.le_canonical t.symbols
    rw [hsymbols] at hroom ⊢
    obtain ⟨happart, hfresh⟩ := renamedBy_freshNames (hroom c hc)
    rw [hnames] at happart hfresh
    have hcov := Clause.rename_covers hnormal happart
    refine ⟨h.store (hle.trans (le_freshNames _ _ _)) (hP.rename c _ hc) ?_ ?_ (hcovers.mpr hcov)
      counter, .inr (.inr (.inl ?_))⟩
    · exact fun h => hempty (Clause.isEmpty_under.mp h)
    · intro y hy
      obtain ⟨x, hx, rfl⟩ := Clause.mem_vars_rename.mp hy
      exact (hfresh x hx).imp_left fun hunknown hknown => hunknown (hknown.mono hle)
    · refine ⟨s.clauses.size, ?_, (congrArg (Clause.Covers · c) (clause_store_size _ _)).mpr hcov⟩
      rw [size_store]
      exact Nat.lt_succ_self _

namespace Store

theorem init (P : Clause → Prop) (σ : Symbols) (limits : Limits) : Store P σ (init limits) where
  toWithin := Within.init P limits
  known id hid := by simp [Saturation.init] at hid
  apart i hi := by simp [Saturation.init] at hi
  nonempty id hid := by simp [Saturation.init] at hid
  weighed p hp := by simp [Saturation.init] at hp
  aged id hid := by simp [Saturation.init] at hid
  passive id hid := by simp [Saturation.init] at hid
  distinct := List.nodup_nil
  listed id hid := by simp [Saturation.init] at hid
  seen form hform := by simp [Saturation.init] at hform

theorem insertAll (hP : Tame σ P) {cs : List Clause} (hσ : σ ≤ t.symbols)
    (h : Store P t.symbols s) (hcs : ∀ c ∈ cs, P c) (hroom : Room P (insertAll cs s t).2.symbols) :
    Store P (insertAll cs s t).2.symbols (insertAll cs s t).1 ∧
      ∀ c ∈ cs, Accounted σ (insertAll cs s t).1 c := by
  induction cs generalizing s t with
  | nil => exact ⟨h, nofun⟩
  | cons c cs ih =>
    have hhead : Room P (Saturation.insert c s t).2.symbols :=
      hroom.of_le (grows_insertAll cs _ (Saturation.insert c s t).2)
    obtain ⟨hstore, hc⟩ := h.insert hP hσ (hcs c List.mem_cons_self) hhead
    obtain ⟨hend, hall⟩ := ih (hσ.trans (grows_insert c s t)) hstore
      (fun d hd => hcs d (List.mem_cons_of_mem c hd)) hroom
    refine ⟨hend, fun d hd => ?_⟩
    rcases List.mem_cons.mp hd with rfl | hd
    · exact hc.after (after_insertAll cs _ _)
    · exact hall d hd

end Store

theorem Store.moved (h : Store P σ s) {id : Nat} (hid : id ∈ s.byAge) : Store P σ (s.moved id) := by
  have hindexed := h.indexed.moved hid
  have hweighed (p : Nat × Nat) (hp : p ∈ (s.moved id).byWeight) := (hindexed.weighed p).mp hp
  exact { h with
    toWithin := ⟨h.clauses, h.pending, fun n hn => (hindexed.listed n).mp (.inl hn),
      fun p hp => (hindexed.listed p.2).mp (.inr (hweighed p hp).1),
      fun n hn => (hindexed.listed n).mp (.inr hn)⟩
    weighed := fun p hp => (hweighed p hp).symm
    aged := fun n hn => (hindexed.weighed _).mpr ⟨hn, rfl⟩
    passive := hindexed.passive
    distinct := hindexed.distinct
    listed := fun n => (hindexed.listed n).mpr }

theorem Store.counted (h : Store P σ s) (counter : UInt32) : Store P σ (s.counted counter) :=
  ⟨⟨h.clauses, h.pending, h.active, h.byWeight, h.byAge⟩, h.known, h.apart, h.nonempty, h.weighed,
    h.aged, h.passive, h.distinct, h.listed, h.seen⟩

end Saturation

end Entailment
