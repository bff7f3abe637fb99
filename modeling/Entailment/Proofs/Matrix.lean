import Entailment.Clause.Clausify
import Entailment.Proofs.Scope
import Entailment.Proofs.Skolem

/-! Clauses of a formula without its quantifiers. Distribution keeps meaning, and
a closed formula whose quantifiers are universal and have distinct names is true
exactly when its clauses are. -/
namespace Entailment

universe u

variable {D : Type u} {I : Interpretation D} {v : Symbol → D}

namespace Clause

theorem holds_union {c d : Clause} : (c.union d).Holds I v ↔ c.Holds I v ∨ d.Holds I v := by
  rw [union, holds_ofList]
  simp only [List.mem_append, or_and_right, exists_or]
  rfl

theorem mem_symbols_union {c d : Clause} {a : Symbol} :
    a ∈ (c.union d).symbols ↔ a ∈ c.symbols ∨ a ∈ d.symbols := by
  simp only [mem_symbols, union, mem_ofList, List.mem_append, or_and_right, exists_or]

theorem mem_distribute {cs ds es : List Clause} (h : distribute cs ds = .ok es) {e : Clause} :
    e ∈ es ↔ ∃ c ∈ cs, ∃ d ∈ ds, e = c.union d := by
  unfold distribute at h
  split at h
  · cases h
  · cases h
    simp only [List.mem_flatMap, List.mem_map, eq_comm]

/-- All clauses hold. -/
def AllHold (I : Interpretation D) (v : Symbol → D) (cs : List Clause) : Prop :=
  ∀ c ∈ cs, c.Holds I v

theorem allHold_append {cs ds : List Clause} :
    AllHold I v (cs ++ ds) ↔ AllHold I v cs ∧ AllHold I v ds :=
  List.forall_mem_append

theorem allHold_singleton {c : Clause} : AllHold I v [c] ↔ c.Holds I v :=
  List.forall_mem_singleton

theorem allHold_distribute {cs ds es : List Clause} (h : distribute cs ds = .ok es) :
    AllHold I v es ↔ AllHold I v cs ∨ AllHold I v ds := by
  constructor
  · intro hes
    by_cases hcs : AllHold I v cs
    · exact .inl hcs
    · obtain ⟨c, hc⟩ := not_forall.mp hcs
      obtain ⟨hmem, hfalse⟩ := Classical.not_imp.mp hc
      refine .inr fun d hd => ?_
      have hunion := hes _ ((mem_distribute h).mpr ⟨c, hmem, d, hd, rfl⟩)
      exact (holds_union.mp hunion).resolve_left hfalse
  · intro hor e he
    obtain ⟨c, hc, d, hd, rfl⟩ := (mem_distribute h).mp he
    exact holds_union.mpr (hor.imp (fun hcs => hcs c hc) fun hds => hds d hd)

section Combination

variable {x y : Except ClausifyError (List Clause)} {cs : List Clause} {p q : Prop}

theorem exists_of_join (h : (do return (← x) ++ (← y)) = .ok cs) :
    ∃ ds es, x = .ok ds ∧ y = .ok es ∧ cs = ds ++ es := by
  simp only [bind_eq_ok_iff] at h
  obtain ⟨ds, hds, es, hes, hcs⟩ := h
  exact ⟨ds, es, hds, hes, (Except.ok.inj hcs).symm⟩

theorem exists_of_distribute (h : (do distribute (← x) (← y)) = .ok cs) :
    ∃ ds es, x = .ok ds ∧ y = .ok es ∧ distribute ds es = .ok cs := by
  simp only [bind_eq_ok_iff] at h
  obtain ⟨ds, hds, es, hes, hcs⟩ := h
  exact ⟨ds, es, hds, hes, hcs⟩

/-- Joining lists of clauses is conjunction. -/
theorem allHold_of_join (h : (do return (← x) ++ (← y)) = .ok cs)
    (hx : ∀ ds, x = .ok ds → (AllHold I v ds ↔ p)) (hy : ∀ es, y = .ok es → (AllHold I v es ↔ q)) :
    AllHold I v cs ↔ p ∧ q := by
  obtain ⟨ds, es, hds, hes, rfl⟩ := exists_of_join h
  rw [allHold_append, hx ds hds, hy es hes]

/-- Distributing lists of clauses is disjunction. -/
theorem allHold_of_distribute (h : (do distribute (← x) (← y)) = .ok cs)
    (hx : ∀ ds, x = .ok ds → (AllHold I v ds ↔ p)) (hy : ∀ es, y = .ok es → (AllHold I v es ↔ q)) :
    AllHold I v cs ↔ p ∨ q := by
  obtain ⟨ds, es, hds, hes, hcs⟩ := exists_of_distribute h
  rw [allHold_distribute hcs, hx ds hds, hy es hes]

end Combination

/-- All symbols of the clauses have the property. -/
def Over (P : Symbol → Prop) (cs : List Clause) : Prop := ∀ c ∈ cs, ∀ a ∈ c.symbols, P a

theorem Over.append {P : Symbol → Prop} {cs ds : List Clause} (hcs : Over P cs) (hds : Over P ds) :
    Over P (cs ++ ds) :=
  List.forall_mem_append.mpr ⟨hcs, hds⟩

theorem Over.distribute {P : Symbol → Prop} {cs ds es : List Clause} (hcs : Over P cs)
    (hds : Over P ds) (h : Clause.distribute cs ds = .ok es) : Over P es := by
  intro e he a ha
  obtain ⟨c, hc, d, hd, rfl⟩ := (mem_distribute h).mp he
  exact (mem_symbols_union.mp ha).elim (hcs c hc a) (hds d hd a)

theorem Over.of_join {P : Symbol → Prop} {x y : Except ClausifyError (List Clause)}
    {cs : List Clause} (h : (do return (← x) ++ (← y)) = .ok cs)
    (hx : ∀ ds, x = .ok ds → Over P ds) (hy : ∀ es, y = .ok es → Over P es) : Over P cs := by
  obtain ⟨ds, es, hds, hes, rfl⟩ := exists_of_join h
  exact (hx ds hds).append (hy es hes)

theorem Over.of_distribute {P : Symbol → Prop} {x y : Except ClausifyError (List Clause)}
    {cs : List Clause} (h : (do Clause.distribute (← x) (← y)) = .ok cs)
    (hx : ∀ ds, x = .ok ds → Over P ds) (hy : ∀ es, y = .ok es → Over P es) : Over P cs := by
  obtain ⟨ds, es, hds, hes, hcs⟩ := exists_of_distribute h
  exact (hx ds hds).distribute (hy es hes) hcs

theorem over_singleton {P : Symbol → Prop} {l : Literal} (h : ∀ a ∈ l.atom.symbols, P a) :
    Over P [ofList [l]] := by
  intro c hc a ha
  rw [List.mem_singleton.mp hc, mem_symbols] at ha
  obtain ⟨k, hk, ha⟩ := ha
  rw [mem_ofList, List.mem_singleton] at hk
  rw [hk] at ha
  exact h a ha

end Clause

theorem Atom.mem_symbols_equation {l r : Term} {a : Symbol} :
    a ∈ (equation l r).symbols ↔ a ∈ l.symbols ∨ a ∈ r.symbols := by
  unfold equation
  split
  · rw [symbols, List.mem_append, or_comm]
  · rw [symbols, List.mem_append]

namespace Formula

/-- The formula without its quantifiers. -/
def matrix : Formula → Formula
  | .rel r args => .rel r args
  | .eq l r => .eq l r
  | .not f => .not f.matrix
  | .and f g => .and f.matrix g.matrix
  | .or f g => .or f.matrix g.matrix
  | .imp f g => .imp f.matrix g.matrix
  | .iff f g => .iff f.matrix g.matrix
  | .all _ f => f.matrix
  | .ex _ f => f.matrix

theorem free_matrix {f : Formula} {x : Symbol} (h : f.matrix.Free x) :
    f.Free x ∨ x ∈ f.binders := by
  induction f with
  | rel r args | eq l r => exact .inl h
  | not f ih => exact ih h
  | and f g ihf ihg | or f g ihf ihg | imp f g ihf ihg | iff f g ihf ihg =>
    rw [binders, List.mem_append]
    rcases h with h | h
    · exact (ihf h).imp .inl .inl
    · exact (ihg h).imp .inr .inr
  | all y f ih | ex y f ih =>
    rw [binders, List.mem_cons]
    by_cases hxy : x = y
    · exact .inr (.inl hxy)
    · exact (ih h).imp (fun hx => ⟨hxy, hx⟩) .inr

/-- The clauses hold exactly when the matrix does or, when `negated`, does not. -/
theorem allHold_clauses {f : Formula} {negated : Bool} {cs : List Clause}
    (h : f.clauses negated = .ok cs) :
    Clause.AllHold I v cs ↔ Signed negated (f.matrix.Holds I v) := by
  induction f generalizing negated cs with
  | rel r args =>
    cases h
    rw [Clause.allHold_singleton, Clause.holds_ofList]
    cases negated <;> simp [Literal.Holds, Atom.Holds, Signed, matrix, Holds]
  | eq l r =>
    cases h
    rw [Clause.allHold_singleton, Clause.holds_ofList]
    cases negated <;> simp [Literal.Holds, Signed, matrix, Holds]
  | not f ih =>
    rw [clauses] at h
    rw [ih h]
    cases negated <;> simp [Signed, matrix, Holds]
  | and f g ihf ihg =>
    -- Under a negation, join and distribution change places.
    cases negated with
    | false => exact Clause.allHold_of_join h (fun _ => ihf) fun _ => ihg
    | true =>
      exact (Clause.allHold_of_distribute h (fun _ => ihf) fun _ => ihg).trans not_and_or.symm
  | or f g ihf ihg =>
    cases negated with
    | false => exact Clause.allHold_of_distribute h (fun _ => ihf) fun _ => ihg
    | true => exact (Clause.allHold_of_join h (fun _ => ihf) fun _ => ihg).trans not_or.symm
  | imp f g ihf ihg =>
    cases negated with
    | false =>
      exact (Clause.allHold_of_distribute h (fun _ => ihf) fun _ => ihg).trans imp_iff_not_or.symm
    | true =>
      exact (Clause.allHold_of_join h (fun _ => ihf) fun _ => ihg).trans Classical.not_imp.symm
  | iff f g ihf ihg =>
    cases negated with
    | false =>
      simp only [clauses, bind_eq_ok_iff] at h
      obtain ⟨fs, hf, gs, hg, es, hes, gs', hg', fs', hf', ds, hds, hcs⟩ := h
      cases hcs
      rw [Clause.allHold_append, Clause.allHold_distribute hes, Clause.allHold_distribute hds,
        ihf hf, ihg hg, ihf hf', ihg hg']
      simp only [Signed, matrix, Holds, if_true, Bool.false_eq_true, if_false]
      tauto
    | true =>
      simp only [clauses, bind_eq_ok_iff] at h
      obtain ⟨fs, hf, gs, hg, gs', hg', fs', hf', hcs⟩ := h
      rw [Clause.allHold_distribute hcs, Clause.allHold_append, Clause.allHold_append, ihf hf,
        ihg hg, ihf hf', ihg hg']
      simp only [Signed, matrix, Holds, if_true, Bool.false_eq_true, if_false]
      tauto
  | all x f ih | ex x f ih =>
    rw [clauses] at h
    exact ih h

theorem over_clauses {P : Symbol → Prop} {f : Formula} {negated : Bool} {cs : List Clause}
    (h : f.clauses negated = .ok cs) (hf : ∀ a ∈ f.symbols, P a) : Clause.Over P cs := by
  induction f generalizing negated cs with
  | rel r args =>
    cases h
    exact Clause.over_singleton hf
  | eq l r =>
    cases h
    refine Clause.over_singleton fun a ha => hf a ?_
    rw [symbols, List.mem_append]
    exact Atom.mem_symbols_equation.mp ha
  | not f ih =>
    rw [clauses] at h
    exact ih h hf
  | and f g ihf ihg =>
    obtain ⟨hf, hg⟩ := List.forall_mem_append.mp hf
    cases negated with
    | false => exact .of_join h (fun _ hfs => ihf hfs hf) fun _ hgs => ihg hgs hg
    | true => exact .of_distribute h (fun _ hfs => ihf hfs hf) fun _ hgs => ihg hgs hg
  | or f g ihf ihg | imp f g ihf ihg =>
    obtain ⟨hf, hg⟩ := List.forall_mem_append.mp hf
    cases negated with
    | false => exact .of_distribute h (fun _ hfs => ihf hfs hf) fun _ hgs => ihg hgs hg
    | true => exact .of_join h (fun _ hfs => ihf hfs hf) fun _ hgs => ihg hgs hg
  | iff f g ihf ihg =>
    obtain ⟨hf, hg⟩ := List.forall_mem_append.mp hf
    cases negated with
    | false =>
      simp only [clauses, bind_eq_ok_iff] at h
      obtain ⟨fs, hfs, gs, hgs, es, hes, gs', hgs', fs', hfs', ds, hds, hcs⟩ := h
      cases hcs
      exact ((ihf hfs hf).distribute (ihg hgs hg) hes).append
        ((ihg hgs' hg).distribute (ihf hfs' hf) hds)
    | true =>
      simp only [clauses, bind_eq_ok_iff] at h
      obtain ⟨fs, hfs, gs, hgs, gs', hgs', fs', hfs', hcs⟩ := h
      exact ((ihf hfs hf).append (ihg hgs hg)).distribute ((ihg hgs' hg).append (ihf hfs' hf)) hcs
  | all x f ih | ex x f ih =>
    rw [clauses] at h
    exact ih h fun a ha => hf a (List.mem_cons_of_mem x ha)

/-- The values of `w` for the names of the list, and those of `v` for others. -/
def overlay (xs : List Symbol) (w v : Symbol → D) (x : Symbol) : D := if x ∈ xs then w x else v x

theorem overlay_nil (w v : Symbol → D) : overlay [] w v = v := by
  funext x
  exact if_neg List.not_mem_nil

theorem overlay_of_mem {xs : List Symbol} {x : Symbol} (h : x ∈ xs) (w v : Symbol → D) :
    overlay xs w v x = w x :=
  if_pos h

theorem overlay_of_not_mem {xs : List Symbol} {x : Symbol} (h : x ∉ xs) (w v : Symbol → D) :
    overlay xs w v x = v x :=
  if_neg h

theorem overlay_cons_update {xs : List Symbol} {x : Symbol} (hx : x ∉ xs) (w v : Symbol → D)
    (d : D) : overlay (x :: xs) (Function.update w x d) v = overlay xs w (Function.update v x d) := by
  funext y
  by_cases hyx : y = x
  · rw [hyx, overlay_of_mem List.mem_cons_self, overlay_of_not_mem hx, Function.update_self,
      Function.update_self]
  · by_cases hy : y ∈ xs
    · rw [overlay_of_mem (List.mem_cons_of_mem x hy), overlay_of_mem hy, Function.update_of_ne hyx]
    · rw [overlay_of_not_mem (List.not_mem_cons_of_ne_of_not_mem hyx hy), overlay_of_not_mem hy,
        Function.update_of_ne hyx]

/-- No name is bound twice, or bound and free. -/
structure Separated (f : Formula) : Prop where
  nodup : f.binders.Nodup
  not_free : ∀ x ∈ f.binders, ¬ f.Free x

namespace Separated

variable {f g : Formula} {x : Symbol}

theorem left (h : Separated (.and f g)) : Separated f :=
  ⟨(List.nodup_append.mp h.nodup).1, fun y hy hfree =>
    h.not_free y (List.mem_append_left _ hy) (.inl hfree)⟩

theorem right (h : Separated (.and f g)) : Separated g :=
  ⟨(List.nodup_append.mp h.nodup).2.1, fun y hy hfree =>
    h.not_free y (List.mem_append_right _ hy) (.inr hfree)⟩

theorem and_of_or (h : Separated (.or f g)) : Separated (.and f g) := ⟨h.nodup, h.not_free⟩

theorem body (h : Separated (.all x f)) : Separated f := by
  refine ⟨(List.nodup_cons.mp h.nodup).2, fun y hy hfree => ?_⟩
  have hyx : y ≠ x := fun heq => (List.nodup_cons.mp h.nodup).1 (heq ▸ hy)
  exact h.not_free y (List.mem_cons_of_mem x hy) ⟨hyx, hfree⟩

theorem disjoint (h : Separated (.and f g)) (hf : x ∈ f.binders) : x ∉ g.binders :=
  fun hg => (List.nodup_append.mp h.nodup).2.2 x hf x hg rfl

theorem holds_matrix_left (h : Separated (.and f g)) (w v : Symbol → D) :
    f.matrix.Holds I (overlay (f.binders ++ g.binders) w v) ↔
      f.matrix.Holds I (overlay f.binders w v) := by
  refine holds_congr_valuation fun y hy => ?_
  by_cases hbound : y ∈ f.binders
  · rw [overlay_of_mem (List.mem_append_left _ hbound), overlay_of_mem hbound]
  · have hfree := (free_matrix hy).resolve_right hbound
    have hy : y ∉ f.binders ++ g.binders := fun hmem => h.not_free y hmem (.inl hfree)
    rw [overlay_of_not_mem hy, overlay_of_not_mem hbound]

theorem holds_matrix_right (h : Separated (.and f g)) (w v : Symbol → D) :
    g.matrix.Holds I (overlay (f.binders ++ g.binders) w v) ↔
      g.matrix.Holds I (overlay g.binders w v) := by
  refine holds_congr_valuation fun y hy => ?_
  by_cases hbound : y ∈ g.binders
  · rw [overlay_of_mem (List.mem_append_right _ hbound), overlay_of_mem hbound]
  · have hfree := (free_matrix hy).resolve_right hbound
    have hy : y ∉ f.binders ++ g.binders := fun hmem => h.not_free y hmem (.inr hfree)
    rw [overlay_of_not_mem hy, overlay_of_not_mem hbound]

/-- Values for two disjoint lists of names can be chosen independently. -/
theorem forall_or_overlay (h : Separated (.and f g)) {P Q : (Symbol → D) → Prop} (v : Symbol → D) :
    (∀ w, P (overlay f.binders w v) ∨ Q (overlay g.binders w v)) ↔
      (∀ w, P (overlay f.binders w v)) ∨ ∀ w, Q (overlay g.binders w v) := by
  refine ⟨fun hor => ?_, fun hor w => hor.imp (fun hP => hP w) fun hQ => hQ w⟩
  by_contra hnot
  obtain ⟨hP, hQ⟩ := not_or.mp hnot
  obtain ⟨w₁, hw₁⟩ := not_forall.mp hP
  obtain ⟨w₂, hw₂⟩ := not_forall.mp hQ
  have hleft : overlay f.binders (overlay f.binders w₁ w₂) v = overlay f.binders w₁ v := by
    funext y
    by_cases hy : y ∈ f.binders
    · rw [overlay_of_mem hy, overlay_of_mem hy, overlay_of_mem hy]
    · rw [overlay_of_not_mem hy, overlay_of_not_mem hy]
  have hright : overlay g.binders (overlay f.binders w₁ w₂) v = overlay g.binders w₂ v := by
    funext y
    by_cases hy : y ∈ g.binders
    · have hnot : y ∉ f.binders := fun hf => h.disjoint hf hy
      rw [overlay_of_mem hy, overlay_of_mem hy, overlay_of_not_mem hnot]
    · rw [overlay_of_not_mem hy, overlay_of_not_mem hy]
  have hboth := hor (overlay f.binders w₁ w₂)
  rw [hleft, hright] at hboth
  exact hboth.elim hw₁ hw₂

end Separated

/-- All quantifiers may be moved to the front. -/
theorem holds_iff_matrix {g : Formula} (hg : g.IsSkolem) (h : g.Separated) (v : Symbol → D) :
    g.Holds I v ↔ ∀ w, g.matrix.Holds I (overlay g.binders w v) := by
  induction hg generalizing v with
  | rel r args | eq l r | notRel r args | notEq l r =>
    simp only [binders, overlay_nil]
    exact ⟨fun h _ => h, fun h => h v⟩
  | and _ _ ihf ihg =>
    simp only [binders, matrix, Holds, h.holds_matrix_left, h.holds_matrix_right, forall_and]
    rw [ihf h.left, ihg h.right]
  | or _ _ ihf ihg =>
    have h := h.and_of_or
    simp only [binders, matrix, Holds, h.holds_matrix_left, h.holds_matrix_right]
    rw [h.forall_or_overlay v (P := Holds I _) (Q := Holds I _), ihf h.left, ihg h.right]
  | all x _ ih =>
    have hx := (List.nodup_cons.mp h.nodup).1
    simp only [binders, matrix, Holds, ih h.body, ← overlay_cons_update hx]
    refine ⟨fun hall w => ?_, fun hall d w => hall _⟩
    simpa using hall (w x) w

/-- A closed formula with universal quantifiers only is its matrix. -/
theorem trueIn_iff_matrix {g : Formula} (hg : g.IsSkolem) (hnodup : g.binders.Nodup)
    (hclosed : ∀ x, ¬ g.Free x) : g.TrueIn I ↔ g.matrix.TrueIn I := by
  have hseparated : g.Separated := ⟨hnodup, fun x _ => hclosed x⟩
  constructor
  · intro h v
    have hv := (holds_iff_matrix hg hseparated v).mp (h v) v
    have hself : overlay g.binders v v = v := by
      funext x
      exact ite_self (v x)
    rwa [hself] at hv
  · intro h v
    exact (holds_iff_matrix hg hseparated v).mpr fun w => h _

end Formula

end Entailment
