import Entailment.Proofs.Closure
import Entailment.Proofs.Polarity
import Entailment.Proofs.Refutation

/-! Completeness of the search on clauses without equations. Sets of ground literals
that are closed under resolution have a model, in which an atom is true when a set
can only be true by it. The instances of the active clauses of a saturated search
are closed in this sense, so terms that stand for themselves give a model of the
clauses that the search started with. -/
namespace Entailment

open SessionM

section Ground

/-- Truth when the atoms of `A` are the true ones. -/
def Literal.TrueFor (A : Atom → Prop) (l : Literal) : Prop :=
  if l.negated then ¬ A l.atom else A l.atom

theorem Literal.trueFor_not {A : Atom → Prop} {l : Literal} :
    l.not.TrueFor A ↔ ¬ l.TrueFor A := by
  obtain ⟨a, n⟩ := l
  cases n <;> simp [TrueFor, Literal.not]

theorem Literal.eq_of_atom {l : Literal} {a : Atom} (h : l.atom = a) :
    l = ⟨a, false⟩ ∨ l = ⟨a, true⟩ := by
  obtain ⟨b, n⟩ := l
  cases n <;> simp_all

theorem Literal.not_ne (l : Literal) : l.not ≠ l := by
  obtain ⟨a, n⟩ := l
  cases n <;> simp [Literal.not]

/-- A literal stands beside its negation. -/
def Complementary (S : Finset Literal) : Prop := ∃ l ∈ S, l.not ∈ S

theorem Complementary.mono {S T : Finset Literal} (h : Complementary S) (hST : S ⊆ T) :
    Complementary T := by
  obtain ⟨l, hl, hnot⟩ := h
  exact ⟨l, hST hl, hST hnot⟩

theorem Complementary.exists_trueFor {S : Finset Literal} (h : Complementary S)
    (A : Atom → Prop) : ∃ l ∈ S, l.TrueFor A := by
  obtain ⟨l, hl, hnot⟩ := h
  by_cases htrue : l.TrueFor A
  · exact ⟨l, hl, htrue⟩
  · exact ⟨l.not, hnot, Literal.trueFor_not.mpr htrue⟩

/-- What resolution on a literal makes of two sets contains a set of `N` or one that
is true anyway. -/
def Resolved (N : Set (Finset Literal)) (S T : Finset Literal) (l : Literal) : Prop :=
  ∃ U ⊆ S.erase l ∪ T.erase l.not, U ∈ N ∨ Complementary U

namespace Resolved

variable {N : Set (Finset Literal)} {S S' T T' : Finset Literal} {l : Literal}

theorem symm (h : Resolved N T S l.not) : Resolved N S T l := by
  obtain ⟨U, hU, h⟩ := h
  rw [Literal.not_not, Finset.union_comm] at hU
  exact ⟨U, hU, h⟩

theorem mono (h : Resolved N S T l) (hS : S ⊆ S') : Resolved N S' T l := by
  obtain ⟨U, hU, h⟩ := h
  exact ⟨U, hU.trans (Finset.union_subset_union_left (Finset.erase_subset_erase l hS)), h⟩

theorem of_subset (hS' : S' ∈ N) (hS : S' ⊆ S) (hl : l ∉ S') : Resolved N S T l := by
  refine ⟨S', fun m hm => Finset.mem_union_left _ (Finset.mem_erase.mpr ⟨?_, hS hm⟩), .inl hS'⟩
  rintro rfl
  exact hl hm

/-- If the negation of the literal is in the first set too, resolution gives a set
that contains the second one. -/
theorem of_complementary (hS : Complementary S) (hT : T ∈ N) : Resolved N S T l := by
  by_cases hnot : l.not ∈ S
  · refine ⟨T, fun m hm => Finset.mem_union.mpr ?_, .inl hT⟩
    by_cases hml : m = l.not
    · rw [hml]
      exact .inl (Finset.mem_erase.mpr ⟨Literal.not_ne l, hnot⟩)
    · exact .inr (Finset.mem_erase.mpr ⟨hml, hm⟩)
  · obtain ⟨m, hm, hmnot⟩ := hS
    refine ⟨S.erase l, Finset.subset_union_left, .inr ⟨m, ?_, ?_⟩⟩
    · refine Finset.mem_erase.mpr ⟨?_, hm⟩
      rintro rfl
      exact hnot hmnot
    · refine Finset.mem_erase.mpr ⟨?_, hmnot⟩
      rintro rfl
      exact hnot (by rwa [Literal.not_not])

end Resolved

/-- Resolution of sets in `N` gives nothing new. -/
def ClosedUnderResolution (N : Set (Finset Literal)) : Prop :=
  ∀ S ∈ N, ∀ T ∈ N, ∀ l ∈ S, l.not ∈ T → Resolved N S T l

/-- Some set can only be true by this atom: all its other literals have smaller atoms
and are false. -/
def Forced [LinearOrder Atom] [WellFoundedLT Atom] (N : Set (Finset Literal)) (a : Atom) : Prop :=
  ∃ S ∈ N, ⟨a, false⟩ ∈ S ∧ ∀ l ∈ S, l ≠ ⟨a, false⟩ →
    ∃ _ : l.atom < a, ¬ if l.negated then ¬ Forced N l.atom else Forced N l.atom
termination_by wellFounded_lt.wrap a

variable [LinearOrder Atom] [WellFoundedLT Atom] {N : Set (Finset Literal)}

theorem forced_iff {a : Atom} :
    Forced N a ↔ ∃ S ∈ N, ⟨a, false⟩ ∈ S ∧ ∀ l ∈ S, l ≠ ⟨a, false⟩ →
      l.atom < a ∧ ¬ l.TrueFor (Forced N) := by
  rw [Forced]
  simp only [exists_prop, Literal.TrueFor]

/-- Below every atom the forced atoms make all sets true. -/
theorem exists_trueFor_forced (hclosed : ClosedUnderResolution N) (hempty : ∅ ∉ N) (a : Atom)
    {S : Finset Literal} (hS : S ∈ N) (hbound : ∀ l ∈ S, l.atom ≤ a) :
    ∃ l ∈ S, l.TrueFor (Forced N) := by
  induction a using WellFoundedLT.induction generalizing S with
  | ind a ih =>
    -- The induction is on the bound; sets with smaller atoms only have their largest atom for it.
    have hsmall {U : Finset Literal} (hU : U ∈ N) (hlt : ∀ l ∈ U, l.atom < a) :
        ∃ l ∈ U, l.TrueFor (Forced N) := by
      have hne : U.Nonempty := Finset.nonempty_iff_ne_empty.mpr fun h => hempty (h ▸ hU)
      obtain ⟨m, hm, hmax⟩ := Finset.exists_max_image U Literal.atom hne
      exact ih m.atom (hlt m hm) hU hmax
    by_contra hfalse
    have hfalse (l : Literal) (hl : l ∈ S) : ¬ l.TrueFor (Forced N) :=
      fun htrue => hfalse ⟨l, hl, htrue⟩
    have hlt {l : Literal} (hl : l ∈ S) (hpos : l ≠ ⟨a, false⟩) (hneg : l ≠ ⟨a, true⟩) :
        l.atom < a :=
      lt_of_le_of_ne (hbound l hl) fun h => (Literal.eq_of_atom h).elim hpos hneg
    by_cases hpos : ⟨a, false⟩ ∈ S
    · -- Unless its negation is there too, the largest atom is forced by the set itself.
      have hneg : ⟨a, true⟩ ∉ S := fun hneg =>
        hfalse _ hneg (Literal.trueFor_not.mpr (hfalse _ hpos))
      refine hfalse _ hpos (forced_iff.mpr ⟨S, hS, hpos, fun l hl hne => ?_⟩)
      exact ⟨hlt hl hne fun h => hneg (h ▸ hl), hfalse l hl⟩
    · by_cases hneg : ⟨a, true⟩ ∈ S
      · -- The set that forces the atom and this one have a resolvent of smaller, false literals.
        have hforced : Forced N a := not_not.mp (hfalse _ hneg)
        obtain ⟨T, hT, hposT, hother⟩ := forced_iff.mp hforced
        obtain ⟨U, hU, hclosed⟩ := hclosed T hT S hS _ hposT hneg
        have hresolved (l : Literal) (hl : l ∈ U) : l.atom < a ∧ ¬ l.TrueFor (Forced N) := by
          rcases Finset.mem_union.mp (hU hl) with hl | hl
          · exact hother l (Finset.mem_of_mem_erase hl) (Finset.ne_of_mem_erase hl)
          · have hmem := Finset.mem_of_mem_erase hl
            exact ⟨hlt hmem (fun h => hpos (h ▸ hmem)) (Finset.ne_of_mem_erase hl), hfalse l hmem⟩
        have htrue : ∃ l ∈ U, l.TrueFor (Forced N) :=
          hclosed.elim (fun hU => hsmall hU fun l hl => (hresolved l hl).1)
            fun hU => hU.exists_trueFor _
        obtain ⟨l, hl, htrue⟩ := htrue
        exact (hresolved l hl).2 htrue
      · obtain ⟨l, hl, htrue⟩ := hsmall hS fun l hl =>
          hlt hl (fun h => hpos (h ▸ hl)) fun h => hneg (h ▸ hl)
        exact hfalse l hl htrue

end Ground

theorem ClosedUnderResolution.exists_model {N : Set (Finset Literal)}
    (h : ClosedUnderResolution N) (hempty : ∅ ∉ N) :
    ∃ A : Atom → Prop, ∀ S ∈ N, ∃ l ∈ S, l.TrueFor A := by
  obtain ⟨_, _⟩ := exists_wellFoundedLT Atom
  refine ⟨Forced N, fun S hS => ?_⟩
  have hne : S.Nonempty := Finset.nonempty_iff_ne_empty.mpr fun heq => hempty (heq ▸ hS)
  obtain ⟨m, -, hmax⟩ := Finset.exists_max_image S Literal.atom hne
  exact exists_trueFor_forced h hempty m.atom hS hmax

namespace Clause

/-- The literals of an instance. -/
def instanceAt (c : Clause) (θ : Symbol → Term) : Finset Literal :=
  (c.under θ).literals.toFinset

variable {c d e : Clause} {γ δ θ : Symbol → Term}

theorem mem_instanceAt {l : Literal} : l ∈ c.instanceAt θ ↔ ∃ k ∈ c.literals, k.under θ = l :=
  List.mem_toFinset.trans mem_under

/-- At most one literal becomes `l` in the instance. -/
def Separates (θ : Symbol → Term) (l : Literal) (c : Clause) : Prop :=
  ∀ k ∈ c.literals, ∀ m ∈ c.literals, k.under θ = l → m.under θ = l → k = m

theorem mem_erase_instanceAt (hc : c.Normal) {k l m : Literal} (hk : k ∈ c.literals)
    (hkl : k.under θ = l) (hsep : c.Separates θ l) (hm : m ∈ c.literals.erase k) :
    m.under θ ∈ (c.instanceAt θ).erase l := by
  obtain ⟨hne, hm⟩ := hc.increasing.nodup.mem_erase_iff.mp hm
  exact Finset.mem_erase.mpr ⟨fun h => hne (hsep m hm k hk h hkl), mem_instanceAt.mpr ⟨m, hm, rfl⟩⟩

/-- Every clause has a copy, of which all instances are instances of the clause. -/
theorem exists_copy (c : Clause) (δ : Symbol → Term) :
    ∃ d δ', c.Copy d ∧ d.instanceAt δ' = c.instanceAt δ ∧
      ∀ l, c.Separates δ l → d.Separates δ' l := by
  let n := c.vars.toFinset.sup Symbol.id + 1
  let ρ : Symbol → Symbol := fun x => ⟨x.id + n⟩
  let δ' : Symbol → Term := fun y => δ ⟨y.id - n⟩
  have hδ (x : Symbol) : (Term.var (ρ x)).subst δ' = δ x := by simp [δ', ρ]
  have hunder (l : Literal) : (l.under fun x => .var (ρ x)).under δ' = l.under δ := by
    rw [Literal.under_under]
    exact congrArg l.under (funext hδ)
  refine ⟨c.rename ρ, δ', ⟨ρ, ⟨fun x _ y _ h => ?_, fun x _ hmem => ?_⟩, rfl⟩, ?_, ?_⟩
  · have hid : x.id + n = y.id + n := congrArg Symbol.id h
    exact congrArg Symbol.mk (Nat.add_right_cancel hid)
  · have hle : (ρ x).id ≤ c.vars.toFinset.sup Symbol.id :=
      Finset.le_sup (List.mem_toFinset.mpr hmem)
    simp only [ρ, n] at hle
    omega
  · rw [instanceAt, instanceAt]
    exact congrArg (·.literals.toFinset)
      ((under_under c (fun x => .var (ρ x)) δ').trans (congrArg c.under (funext hδ)))
  · intro l hsep k hk m hm hkl hml
    obtain ⟨k', hk', rfl⟩ := mem_under.mp hk
    obtain ⟨m', hm', rfl⟩ := mem_under.mp hm
    rw [hsep k' hk' m' hm' ((hunder k').symm.trans hkl) ((hunder m').symm.trans hml)]

end Clause

namespace Saturation

variable {P : Clause → Prop} {σ τ : Symbols} {cs : List Clause} {s : Saturation} {c d e : Clause}

/-- Sorted clauses over a table, without equations and answers. -/
structure Relational (σ : Symbols) (P : Clause → Prop) : Prop extends Tame σ P where
  relational : ∀ c, P c → ∀ l ∈ c.literals, l.atom.isEq = false
  answerless : ∀ c, P c → ∀ l ∈ c.literals, l.isAnswer σ = false

/-- The literals of all instances of active clauses. -/
def instances (s : Saturation) : Set (Finset Literal) :=
  {S | ∃ id ∈ s.active, ∃ θ, (s.clause id).instanceAt θ = S}

theorem Relational.not_isAnswer (hP : Relational σ P) (hc : P c) : ¬ c.isAnswer σ = true := by
  intro h
  obtain ⟨⟨l, hl⟩, hall⟩ := Clause.isAnswer_iff.mp h
  simpa [hP.answerless c hc l hl] using hall l hl

theorem Relational.complementary (hP : Relational σ P) (hc : P c)
    (h : c.isTautology = true) (θ : Symbol → Term) : Complementary (c.instanceAt θ) := by
  have hnormal := hP.normal c hc
  rcases (Clause.isTautology_iff hnormal.increasing).mp h with ⟨l, hl, hnot⟩ | ⟨l, hl, hrefl⟩
  · exact ⟨_, Clause.mem_instanceAt.mpr ⟨l, hl, rfl⟩, Clause.mem_instanceAt.mpr ⟨l.not, hnot, rfl⟩⟩
  · have hrel := hP.relational c hc l hl
    obtain ⟨a, n⟩ := l
    cases a with
    | rel r args => simp [Clause.isReflexive] at hrefl
    | eq l r => cases hrel

/-- Below an instance of a redundant clause there is an instance of an active one. -/
theorem Relational.exists_below (hP : Relational σ P) (hc : P c) (h : Redundant σ s c)
    (θ : Symbol → Term) :
    Complementary (c.instanceAt θ) ∨
      ∃ id ∈ s.active, (s.clause id).size ≤ c.size ∧
        ∃ η, (s.clause id).instanceAt η ⊆ c.instanceAt θ := by
  rcases h with h | h | ⟨id, hid, hsize, η, hη⟩
  · exact .inl (hP.complementary hc h θ)
  · exact absurd h (hP.not_isAnswer hc)
  · refine .inr ⟨id, hid, hsize, fun x => (η x).subst θ, fun l hl => ?_⟩
    obtain ⟨k, hk, rfl⟩ := Clause.mem_instanceAt.mp hl
    rw [← Literal.under_under]
    exact Clause.mem_instanceAt.mpr ⟨_, hη k hk, rfl⟩

/-- Factoring: some instance of an active clause that is no larger has the literal
once. -/
theorem Saturated.exists_separates (hP : Relational σ P) (h : Saturated σ cs s)
    (hs : Within P s) (l : Literal) {id : Nat} (hid : id ∈ s.active) (θ : Symbol → Term) :
    Complementary ((s.clause id).instanceAt θ) ∨
      ∃ id' ∈ s.active, ∃ η, (s.clause id').Separates η l ∧
        (s.clause id').instanceAt η ⊆ (s.clause id).instanceAt θ := by
  induction hn : (s.clause id).size using Nat.strong_induction_on generalizing id θ with
  | h n ih =>
    have hc := hs.clause (hs.active id hid)
    by_cases hsep : (s.clause id).Separates θ l
    · exact .inr ⟨id, hid, θ, hsep, Finset.Subset.refl _⟩
    · simp only [Clause.Separates, not_forall] at hsep
      obtain ⟨k, hk, m, hm, hkl, hml, hne⟩ := hsep
      obtain ⟨e, he, hunder, hsize⟩ := Clause.exists_mem_factors (hP.normal _ hc) hk hm hne
        (hP.answerless _ hc k hk) (hP.answerless _ hc m hm) (hkl.trans hml.symm)
      have hPe : P e := hP.unary σ le_rfl _ hc e (List.mem_append_left _ he)
      have hinstance : e.instanceAt θ = (s.clause id).instanceAt θ :=
        congrArg (·.literals.toFinset) hunder
      have hbelow := hP.exists_below hPe (h.factors id hid e he) θ
      rw [hinstance] at hbelow
      refine hbelow.elim .inl ?_
      rintro ⟨id', hid', hle, η, hη⟩
      rcases ih _ (hn ▸ hle.trans_lt hsize) hid' η rfl with hcomp | ⟨i, hi, ζ, hsep, hsub⟩
      · exact .inl (hcomp.mono hη)
      · exact .inr ⟨i, hi, ζ, hsep, hsub.trans hη⟩

/-- Resolution on a literal that both instances have once. -/
theorem Relational.resolved (hP : Relational σ P) (hc : P c) (hd : P d)
    (hredundant : ∀ e ∈ c.resolvents σ d, Redundant σ s e) (hapart : ∀ x ∈ c.vars, x ∉ d.vars)
    {γ δ : Symbol → Term} {l : Literal} (hl : l ∈ c.instanceAt γ) (hnot : l.not ∈ d.instanceAt δ)
    (hγ : c.Separates γ l) (hδ : d.Separates δ l.not) :
    Resolved s.instances (c.instanceAt γ) (d.instanceAt δ) l := by
  obtain ⟨k, hk, hkl⟩ := Clause.mem_instanceAt.mp hl
  obtain ⟨m, hm, hml⟩ := Clause.mem_instanceAt.mp hnot
  have hcn := hP.normal c hc
  have hdn := hP.normal d hd
  obtain ⟨e, he, η, hη⟩ := Clause.exists_mem_resolvents hcn.increasing hdn.increasing hapart hk hm
    (hP.answerless c hc k hk) (hP.answerless d hd m hm) (hml.trans (congrArg Literal.not hkl.symm))
  have hsub : e.instanceAt η ⊆ (c.instanceAt γ).erase l ∪ (d.instanceAt δ).erase l.not := by
    intro j hj
    rw [Clause.instanceAt, hη, List.mem_toFinset, Clause.mem_ofList, List.mem_append] at hj
    rw [Finset.mem_union]
    refine hj.imp (fun hj => ?_) fun hj => ?_
    · obtain ⟨i, hi, rfl⟩ := List.mem_map.mp hj
      exact Clause.mem_erase_instanceAt hcn hk hkl hγ hi
    · obtain ⟨i, hi, rfl⟩ := List.mem_map.mp hj
      exact Clause.mem_erase_instanceAt hdn hm hml hδ hi
  have hPe : P e := hP.resolvents σ le_rfl c d hc hd e he
  rcases hP.exists_below hPe (hredundant e he) η with hcomp | ⟨id, hid, -, ζ, hζ⟩
  · exact ⟨_, hsub, .inr hcomp⟩
  · exact ⟨_, hζ.trans hsub, .inl ⟨id, hid, ζ, rfl⟩⟩

/-- It is enough to resolve instances that have the literal once. -/
theorem Saturated.resolved_of_separates (hP : Relational σ P) (h : Saturated σ cs s)
    (hs : Within P s) {l : Literal} {T : Finset Literal} (hT : T ∈ s.instances)
    (hsep : ∀ id ∈ s.active, ∀ η, (s.clause id).Separates η l → l ∈ (s.clause id).instanceAt η →
      Resolved s.instances ((s.clause id).instanceAt η) T l)
    {id : Nat} (hid : id ∈ s.active) (θ : Symbol → Term) :
    Resolved s.instances ((s.clause id).instanceAt θ) T l := by
  rcases h.exists_separates hP hs l hid θ with hcomp | ⟨id', hid', η, hη, hsub⟩
  · exact .of_complementary hcomp hT
  · by_cases hl : l ∈ (s.clause id').instanceAt η
    · exact (hsep id' hid' η hη hl).mono hsub
    · exact .of_subset ⟨id', hid', η, rfl⟩ hsub hl

/-- All resolvents of the two clauses are redundant. -/
def Spent (σ : Symbols) (s : Saturation) (i j : Nat) : Prop :=
  ∀ e ∈ (s.clause i).resolvents σ (s.clause j), Redundant σ s e

/-- Of two active clauses the later one was resolved with the earlier one. -/
theorem Saturated.spent_or_spent (h : Saturated σ cs s) {i j : Nat} (hi : i ∈ s.active)
    (hj : j ∈ s.active) (hne : i ≠ j) : Spent σ s i j ∨ Spent σ s j i := by
  have hpairs : s.active.toList.Pairwise fun i j => Spent σ s i j ∨ Spent σ s j i :=
    h.pairs.imp fun hpair =>
      .inr fun e he => hpair e (List.mem_append_left _ (List.mem_append_left _ he))
  have hsymm : Std.Symm fun i j => Spent σ s i j ∨ Spent σ s j i := ⟨fun _ _ => Or.symm⟩
  exact hpairs.forall (Array.mem_toList_iff.mpr hi) (Array.mem_toList_iff.mpr hj) hne

theorem Saturated.resolved_of_ne (hP : Relational σ P) (h : Saturated σ cs s)
    (hs : Store P τ s) {i j : Nat} (hi : i ∈ s.active) (hj : j ∈ s.active) (hne : i ≠ j)
    {γ δ : Symbol → Term} {l : Literal} (hl : l ∈ (s.clause i).instanceAt γ)
    (hnot : l.not ∈ (s.clause j).instanceAt δ) (hγ : (s.clause i).Separates γ l)
    (hδ : (s.clause j).Separates δ l.not) :
    Resolved s.instances ((s.clause i).instanceAt γ) ((s.clause j).instanceAt δ) l := by
  have hPi := hs.clause (hs.active i hi)
  have hPj := hs.clause (hs.active j hj)
  have hapart {i j : Nat} (hi : i ∈ s.active) (hj : j ∈ s.active) (hne : i ≠ j) (x : Symbol)
      (hx : x ∈ (s.clause i).vars) : x ∉ (s.clause j).vars :=
    fun hx' => hne (hs.apart i (hs.active i hi) j (hs.active j hj) x hx hx')
  rcases h.spent_or_spent hi hj hne with hspent | hspent
  · exact hP.resolved hPi hPj hspent (hapart hi hj hne) hl hnot hγ hδ
  · refine Resolved.symm (hP.resolved hPj hPi hspent (hapart hj hi hne.symm) hnot ?_ hδ ?_)
    · rwa [Literal.not_not]
    · rwa [Literal.not_not]

theorem Saturated.resolved_of_self (hP : Relational σ P) (h : Saturated σ cs s)
    (hs : Within P s) {id : Nat} (hid : id ∈ s.active) {γ δ : Symbol → Term} {l : Literal}
    (hl : l ∈ (s.clause id).instanceAt γ) (hnot : l.not ∈ (s.clause id).instanceAt δ)
    (hγ : (s.clause id).Separates γ l) (hδ : (s.clause id).Separates δ l.not) :
    Resolved s.instances ((s.clause id).instanceAt γ) ((s.clause id).instanceAt δ) l := by
  have hc := hs.clause (hs.active id hid)
  obtain ⟨d, δ', hcopy, hinstance, hsep⟩ := (s.clause id).exists_copy δ
  have hredundant (e : Clause) (he : e ∈ (s.clause id).resolvents σ d) : Redundant σ s e :=
    h.copies id hid d hcopy e (List.mem_append_left _ he)
  obtain ⟨ρ, hρ, rfl⟩ := hcopy
  rw [← hinstance] at hnot ⊢
  refine hP.resolved hc (hP.rename _ ρ hc) hredundant (fun x hx hmem => ?_) hl hnot hγ (hsep _ hδ)
  obtain ⟨y, hy, rfl⟩ := Clause.mem_vars_rename.mp hmem
  exact hρ.new y hy hx

/-- The instances of the active clauses of a saturated search are closed under ground
resolution. -/
theorem Saturated.closedUnderResolution (hP : Relational σ P) (h : Saturated σ cs s)
    (hs : Store P τ s) : ClosedUnderResolution s.instances := by
  rintro _ ⟨i, hi, γ, rfl⟩ _ ⟨j, hj, δ, rfl⟩ l - -
  refine h.resolved_of_separates hP hs.toWithin ⟨j, hj, δ, rfl⟩ (fun i hi γ hγ hl => ?_) hi γ
  refine Resolved.symm (h.resolved_of_separates hP hs.toWithin ⟨i, hi, γ, rfl⟩ ?_ hj δ)
  intro j hj δ hδ hnot
  refine Resolved.symm ?_
  rw [Literal.not_not]
  by_cases hij : i = j
  · subst hij
    exact h.resolved_of_self hP hs.toWithin hi hl hnot hγ hδ
  · exact h.resolved_of_ne hP hs hi hj hij hl hnot hγ hδ

end Saturation

/-- Terms stand for themselves, and the atoms of `A` are the true ones. -/
def herbrand (A : Atom → Prop) : Interpretation Term :=
  ⟨.const, .app, fun r ts => A (.rel r ts)⟩

section Herbrand

variable {A : Atom → Prop} {v : Symbol → Term}

theorem eval_herbrand (t : Term) : t.eval (herbrand A) v = t.subst v := by
  induction t using Term.rec_args with
  | var x => rfl
  | const c => rfl
  | app f args ih =>
    rw [Term.eval_app, Term.subst_app]
    exact congrArg (Term.app f) (List.map_congr_left ih)

theorem Literal.holds_herbrand {l : Literal} (h : l.atom.isEq = false) :
    l.Holds (herbrand A) v ↔ (l.under v).TrueFor A := by
  obtain ⟨a, n⟩ := l
  cases a with
  | rel r args =>
    have hargs : args.map (Term.eval (herbrand A) v) = args.map (Term.subst v) :=
      List.map_congr_left fun t _ => eval_herbrand t
    simp only [Holds, TrueFor, Atom.Holds, mapTerms, Atom.mapTerms, hargs]
    rfl
  | eq l r => cases h

end Herbrand

namespace Saturation

variable {P : Clause → Prop} {σ τ : Symbols} {cs : List Clause} {s : Saturation} {c : Clause}

theorem Redundant.trueIn {D : Type} {I : Interpretation D} (hP : Relational σ P) (hc : P c)
    (h : Redundant σ s c) (hactive : ∀ id ∈ s.active, (s.clause id).TrueIn I) : c.TrueIn I := by
  rcases h with h | h | ⟨id, hid, hcovers⟩
  · exact fun v => Clause.holds_of_isTautology h
  · exact absurd h (hP.not_isAnswer hc)
  · exact hcovers.trueIn (hactive id hid)

/-- The clauses of a saturated search have a model. -/
theorem Saturated.exists_model (hP : Relational σ P) (h : Saturated σ cs s) (hs : Store P τ s)
    (hcs : ∀ c ∈ cs, P c) : ∃ I : Interpretation Term, ∀ c ∈ cs, c.TrueIn I := by
  have hempty : ∅ ∉ s.instances := by
    rintro ⟨id, hid, θ, heq⟩
    refine hs.nonempty id (hs.active id hid) (Clause.isEmpty_iff.mpr fun l hl => ?_)
    have hmem : l.under θ ∈ (s.clause id).instanceAt θ := Clause.mem_instanceAt.mpr ⟨l, hl, rfl⟩
    rw [heq] at hmem
    exact Finset.notMem_empty _ hmem
  obtain ⟨A, hA⟩ := (h.closedUnderResolution hP hs).exists_model hempty
  refine ⟨herbrand A, fun c hc => (h.inputs c hc).trueIn hP (hcs c hc) fun id hid v => ?_⟩
  obtain ⟨l, hl, htrue⟩ := hA _ ⟨id, hid, v, rfl⟩
  obtain ⟨k, hk, rfl⟩ := Clause.mem_instanceAt.mp hl
  have hrel := hP.relational _ (hs.clause (hs.active id hid)) k hk
  exact ⟨k, hk, (Literal.holds_herbrand hrel).mpr htrue⟩

/-- A search that is run to its end passes over all answers. -/
theorem exists_pursueFor_eq (s : Saturation) (t : Session) :
    ∃ e s' t', pursueFor (fun (_ : Unit) _ => pure ((), (none : Option Empty)))
        (s.remaining t.horizon) s () t = ((.ended e, s', ()), t') ∧ s.finish t = ((e, s'), t') := by
  unfold finish pursue
  rw [bind_apply, bind_apply, get_apply]
  rcases pursueFor (fun (_ : Unit) _ => pure ((), (none : Option Empty)))
    (s.remaining t.horizon) s () t with ⟨⟨report, s', _⟩, t'⟩
  cases report with
  | found g => exact g.elim
  | ended e => exact ⟨e, s', t', rfl, rfl⟩

theorem Invariant.finish {Inv : Symbols → Saturation → Prop} (hInv : Invariant Inv) {t : Session}
    (h : Inv t.symbols s) (hend : (s.finish t).1.1 = .saturated) :
    Inv (s.finish t).2.symbols (s.finish t).1.2 ∧
      (s.finish t).1.2.pending = [] ∧ (s.finish t).1.2.pick = none := by
  have hpursue := hInv.pursueFor (fun (_ : Unit) _ => grows_pure ((), (none : Option Empty))) h
    (s.remaining t.horizon) ()
  obtain ⟨e, s', t', hrun, hfinish⟩ := exists_pursueFor_eq s t
  rw [hfinish] at hend ⊢
  rw [hrun] at hpursue
  cases hend
  exact (hpursue nofun).imp_right fun h => h rfl

/-- The search for a refutation of clauses. -/
def refute (cs : List Clause) (limits : Limits) (t : Session) : (Ending × Saturation) × Session :=
  (start cs limits t).1.finish (start cs limits t).2

/-- Clauses without equations and answers whose search ends in saturation have a
model. -/
theorem exists_model_of_refute {limits : Limits} {t : Session} (hP : Relational t.symbols P)
    (hcs : ∀ c ∈ cs, P c) (hroom : Room P (refute cs limits t).2.symbols)
    (hend : (refute cs limits t).1.1 = .saturated) :
    ∃ I : Interpretation Term, ∀ c ∈ cs, c.TrueIn I := by
  obtain ⟨hmaintained, hpending, hpick⟩ := (invariant_maintained hP.toTame cs).finish
    (maintained_start hP.toTame hcs limits) hend
  have hsaturated := hmaintained.saturated hP.toTame hroom hpending hpick
  exact hsaturated.exists_model hP (hmaintained.2 hroom).1 hcs

end Saturation

/-- A relation of the table that is not the one of answers. -/
def Atom.Ordinary (σ : Symbols) (a : Atom) : Prop :=
  a.RelationIn σ ∧ a.isEq = false ∧ a.isAnswer σ = false

namespace Atom.Ordinary

variable {σ τ : Symbols} {a : Atom}

theorem subst (h : a.Ordinary σ) (θ : Symbol → Term) : (Atom.subst θ a).Ordinary σ := by
  cases a with
  | rel r args => exact h
  | eq l r => cases h.2.1

theorem mono (h : a.Ordinary σ) (hτ : σ ≤ τ) : a.Ordinary τ := by
  cases a with
  | rel r args =>
    refine ⟨Symbols.Knows.mono hτ h.1, rfl, ?_⟩
    rw [Atom.isAnswer, Symbols.name_eq_of_le hτ h.1]
    exact h.2.2
  | eq l r => cases h.2.1

end Atom.Ordinary

/-- Sorted, over relations of the table that are not the one of answers. -/
def Clause.Ordinary (σ : Symbols) (c : Clause) : Prop :=
  c.Normal ∧ ∀ l ∈ c.literals, l.atom.Ordinary σ

theorem Clause.ordinary_ofList {σ : Symbols} {ls : List Literal}
    (h : ∀ l ∈ ls, l.atom.Ordinary σ) : (ofList ls).Ordinary σ := by
  refine ⟨normal_ofList fun l hl => ?_, fun l hl => h l (mem_ofList.mp hl)⟩
  exact Atom.ordered_of_isEq (h l hl).2.1

theorem Saturation.relational_ordinary (σ : Symbols) : Relational σ (Clause.Ordinary σ) where
  toDeductive := by
    refine (deductive_normal σ).and (deductive_literals (p := fun l => l.atom.Ordinary σ) ?_ ?_)
    · rintro ⟨a, n⟩ θ h
      cases a with
      | rel r args => exact h
      | eq l r => cases h.2.1
    · rintro l r hlr - - - -
      cases hlr.2.1
  normal _ h := h.1
  relations _ h l hl := (h.2 l hl).1
  relational _ h l hl := (h.2 l hl).2.1
  answerless _ h l hl := (h.2 l hl).2.2

theorem Clausifier.ordinary_of_clausify {f : Formula} {k : Clausifier} {t : Session}
    {cs : ClauseSet} {σ : Symbols} (hf : ∀ a ∈ f.atoms, a.Ordinary σ)
    (hok : (k.clausify f t).1.1 = .ok cs) : ∀ c ∈ cs.clauses, c.Ordinary σ := by
  refine forall_clausify (p := fun _ a => a.Ordinary σ) ?_ ?_ ?_ ?_
    (Formula.signs_of_atoms (fun a ha _ => hf a ha) false) hok
  · exact fun n a θ h => h.subst θ
  · exact fun n r args h => Clause.ordinary_ofList (List.forall_mem_singleton.mpr h)
  · exact fun n l r h => by cases h.2.1
  · exact fun c d hc hd => Clause.ordinary_ofList (List.forall_mem_append.mpr ⟨hc.2, hd.2⟩)

section Prove

open Saturation

variable {base : List Clause} {goal : Formula} {k : Clausifier} {limits : Limits} {t : Session}
  {cs : ClauseSet}

/-- A proof converts the negated goal and refutes its clauses and the premises. -/
theorem prove_of_clausify (base : List Clause) (limits : Limits)
    (hok : (k.clausify (.not goal) t).1.1 = .ok cs) :
    (prove base goal k limits t).1.1 =
        .ok (refute (base ++ cs.clauses) limits (k.clausify (.not goal) t).2).1.1.outcome ∧
      (prove base goal k limits t).2.symbols =
        (refute (base ++ cs.clauses) limits (k.clausify (.not goal) t).2).2.symbols := by
  unfold prove
  rw [bind_apply]
  rcases hconvert : k.clausify (.not goal) t with ⟨⟨result, k'⟩, t'⟩
  rw [hconvert] at hok
  cases hok
  exact ⟨rfl, rfl⟩

theorem Ending.eq_saturated_of_outcome {e : Ending} (h : e.outcome = .notEntailed) :
    e = .saturated := by
  cases e with
  | saturated => rfl
  | contradiction | exhausted => cases h

theorem exists_clausify_of_prove {o : Outcome} (h : (prove base goal k limits t).1.1 = .ok o) :
    ∃ cs, (k.clausify (.not goal) t).1.1 = .ok cs := by
  unfold prove at h
  rw [bind_apply] at h
  rcases hconvert : k.clausify (.not goal) t with ⟨⟨result, k'⟩, t'⟩
  rw [hconvert] at h
  cases result with
  | error e => cases h
  | ok cs => exact ⟨cs, rfl⟩

/-- Without equations and answers, a goal that is reported as not entailed is false in
some model of the premises. -/
theorem exists_countermodel_of_prove {lss : List (List Literal)}
    (hbase : ∀ ls ∈ lss, ∀ l ∈ ls, l.atom.isEq = false ∧ l.isAnswer t.symbols = false)
    (hbaseNames : ∀ ls ∈ lss, ∀ l ∈ ls, ∀ a ∈ l.atom.symbols, t.symbols.Knows a)
    (hgoal : ∀ a ∈ goal.atoms, a.isEq = false ∧ a.isAnswer t.symbols = false)
    (hgoalNames : ∀ a ∈ goal.symbols, t.symbols.Knows a)
    (hsize : (prove (lss.map .ofList) goal k limits t).2.symbols.size < UInt32.size)
    (hnot : (prove (lss.map .ofList) goal k limits t).1.1 = .ok .notEntailed) :
    ∃ (D : Type) (I : Interpretation D),
      (∀ ls ∈ lss, (Clause.ofList ls).TrueIn I) ∧ ¬ goal.TrueIn I := by
  obtain ⟨cs, hok⟩ := exists_clausify_of_prove hnot
  obtain ⟨houtcome, hsymbols⟩ := prove_of_clausify (lss.map .ofList) limits hok
  have hle := Clausifier.le_clausify (.not goal) k t
  have hordinary : ∀ c ∈ lss.map Clause.ofList ++ cs.clauses,
      c.Ordinary (k.clausify (.not goal) t).2.symbols := by
    refine List.forall_mem_append.mpr ⟨fun c hc => ?_, ?_⟩
    · obtain ⟨ls, hls, rfl⟩ := List.mem_map.mp hc
      refine Clause.ordinary_ofList fun l hl => Atom.Ordinary.mono ?_ hle
      exact ⟨Atom.relationIn_of_symbols (hbaseNames ls hls l hl), hbase ls hls l hl⟩
    · refine Clausifier.ordinary_of_clausify (fun a ha => Atom.Ordinary.mono ?_ hle) hok
      refine ⟨Atom.relationIn_of_symbols fun x hx => hgoalNames x ?_, hgoal a ha⟩
      exact Formula.mem_symbols_of_mem_atoms ha hx
  have hend := Ending.eq_saturated_of_outcome (Except.ok.inj (houtcome.symm.trans hnot))
  have hconvertible := convertible_of_prove hgoalNames hsize hok
  have hclosed : ∀ x, ¬ goal.Free x := hconvertible.closed
  rw [hsymbols] at hsize
  obtain ⟨I, hI⟩ := exists_model_of_refute (relational_ordinary _) hordinary
    (fun _ _ => .inr hsize) hend
  have hnegated : (Formula.not goal).TrueIn I :=
    Clausifier.trueIn_of_clausify hconvertible hok fun c hc => hI c (List.mem_append_right _ hc)
  refine ⟨Term, I, fun ls hls => ?_, (Formula.trueIn_not_iff hclosed).mp hnegated⟩
  exact hI _ (List.mem_append_left _ (List.mem_map_of_mem hls))

/-- The clauses `¬P(c) ∨ Q(d)` and `P(c) ∨ Q(c)`, where `P`, `Q`, `c` and `d` are the
first names. -/
def alternatives : List (List Literal) :=
  [[⟨.rel ⟨0⟩ [.const ⟨2⟩], true⟩, ⟨.rel ⟨1⟩ [.const ⟨3⟩], false⟩],
    [⟨.rel ⟨0⟩ [.const ⟨2⟩], false⟩, ⟨.rel ⟨1⟩ [.const ⟨2⟩], false⟩]]

/-- The search for a proof of `Q(d)` from these clauses. -/
def alternativesProof : (Except ClausifyError Outcome × Clausifier) × Session :=
  prove (alternatives.map .ofList) (.rel ⟨1⟩ [.const ⟨3⟩]) .new ⟨some 20, none⟩
    (.knowing ["P", "Q", "c", "d"])

/-- Resolution gives `¬P(c)`, `Q(c)` and `Q(c) ∨ Q(d)`, and then nothing new. -/
theorem exists_countermodel_of_prove_alternatives :
    alternativesProof.1.1 = .ok .notEntailed ∧
    ∃ (D : Type) (I : Interpretation D),
      (∀ ls ∈ alternatives, (Clause.ofList ls).TrueIn I) ∧
        ¬ (Formula.rel ⟨1⟩ [.const ⟨3⟩]).TrueIn I := by
  have hrun : (alternativesProof.1.1, alternativesProof.2.symbols.size) = (.ok .notEntailed, 5) := by
    cbv
  obtain ⟨hnot, hsize⟩ := Prod.mk.inj hrun
  refine ⟨hnot, exists_countermodel_of_prove ?_ ?_ ?_ ?_ (hsize.trans_lt ?_) hnot⟩
  all_goals decide

end Prove

end Entailment
