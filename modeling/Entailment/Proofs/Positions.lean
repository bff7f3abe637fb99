import Entailment.Proofs.Instances

/-! Paths into terms. The listed paths, what stands at a path and what a replacement
there changes agree with each other, whatever the shape of the term. -/
namespace Entailment.Term

/-- A walk through a term: the path to the subterm it has reached, which grows and
shrinks on the way, and the paths it has noted. -/
structure Walk where
  here : List Nat
  found : List (List Nat)
deriving DecidableEq

namespace Walk

def enter (w : Walk) (i : Nat) : Walk := { w with here := w.here ++ [i] }

def leave (w : Walk) : Walk := { w with here := w.here.dropLast }

def note (w : Walk) : Walk := { w with found := w.found ++ [w.here] }

end Walk

mutual

/-- Notes the paths of all subterms that are no variables, with one path for the whole
walk. -/
def walk : Term → Walk → Walk
  | .var _, w => w
  | .const _, w => w.note
  | .app _ args, w => walkArgs 0 args w.note

def walkArgs (i : Nat) : List Term → Walk → Walk
  | [], w => w
  | t :: ts, w => walkArgs (i + 1) ts (t.walk (w.enter i)).leave

end

theorem walkArgs_eq {ts : List Term}
    (h : ∀ t ∈ ts, ∀ here found,
      t.walk ⟨here, found⟩ = ⟨here, found ++ t.positions.map (here ++ ·)⟩)
    (i : Nat) (here : List Nat) (found : List (List Nat)) :
    walkArgs i ts ⟨here, found⟩ = ⟨here, found ++ (positionsFrom i ts).map (here ++ ·)⟩ := by
  induction ts generalizing i found with
  | nil => simp [walkArgs, positionsFrom]
  | cons t ts ih =>
    rw [List.forall_mem_cons] at h
    rw [walkArgs, Walk.enter, h.1, Walk.leave, List.dropLast_concat, ih h.2, positionsFrom]
    simp [Function.comp_def]

/-- The walk comes back to where it started and has noted the listed paths in their order. -/
theorem walk_eq (t : Term) (here : List Nat) (found : List (List Nat)) :
    t.walk ⟨here, found⟩ = ⟨here, found ++ t.positions.map (here ++ ·)⟩ := by
  induction t using rec_args generalizing here found with
  | var x => simp [walk, positions]
  | const c => simp [walk, Walk.note, positions]
  | app f args ih =>
    rw [walk, Walk.note, walkArgs_eq ih, positions]
    simp

theorem pairwise_positionsFrom {ts : List Term}
    (h : ∀ t ∈ ts, t.positions.Pairwise (· < ·)) (i : Nat) :
    (positionsFrom i ts).Pairwise (· < ·) := by
  induction ts generalizing i with
  | nil => exact .nil
  | cons t ts ih =>
    rw [List.forall_mem_cons] at h
    rw [positionsFrom, List.pairwise_append, List.pairwise_map]
    refine ⟨h.1.imp fun hlt => ?_, ih h.2 (i + 1), ?_⟩
    · exact List.cons_lt_cons_iff.mpr (.inr ⟨rfl, hlt⟩)
    · intro path hpath later hlater
      obtain ⟨rest, -, rfl⟩ := List.mem_map.mp hpath
      obtain ⟨j, u, rest', -, -, rfl⟩ := mem_positionsFrom.mp hlater
      exact List.cons_lt_cons_iff.mpr (.inl (by omega))

/-- In the lexicographic order of paths a path stands before all that go on from it, and
these before those into later arguments. -/
theorem pairwise_positions (t : Term) : t.positions.Pairwise (· < ·) := by
  induction t using rec_args with
  | var x => exact .nil
  | const c => exact List.pairwise_singleton _ _
  | app f args ih =>
    rw [positions, List.pairwise_cons]
    refine ⟨fun path hpath => ?_, pairwise_positionsFrom ih 0⟩
    obtain ⟨j, u, rest, -, -, rfl⟩ := mem_positionsFrom.mp hpath
    exact List.nil_lt_cons _ _

/-- Above the place of a replacement it shows inside the subterm there. -/
theorem at?_replaceAt_above {t : Term} {path above : List Nat} (h : above <+: path) (u : Term) :
    (t.replaceAt path u).at? above = (t.at? above).map (·.replaceAt (path.drop above.length) u) := by
  induction above generalizing t path with
  | nil => simp [at?]
  | cons i above ih =>
    obtain ⟨rest, rfl⟩ := h
    cases t with
    | var x | const c => rfl
    | app f args =>
      have hinside (s : Term) := ih (t := s) (List.prefix_append above rest)
      cases hi : args[i]? <;> simp [replaceAt, at?, hi, hinside]

/-- A replacement shows at no path that leads elsewhere. -/
theorem at?_replaceAt_elsewhere {t : Term} {path other : List Nat} (h : ¬ path <+: other)
    (h' : ¬ other <+: path) (u : Term) : (t.replaceAt path u).at? other = t.at? other := by
  induction path generalizing t other with
  | nil => exact absurd List.nil_prefix h
  | cons i path ih =>
    rcases other with _ | ⟨j, other⟩
    · exact absurd List.nil_prefix h'
    cases t with
    | var x | const c => rfl
    | app f args =>
      rw [List.cons_prefix_cons, not_and] at h h'
      by_cases hij : i = j
      · subst hij
        have hinside (s : Term) := ih (t := s) (h rfl) (h' rfl)
        cases hi : args[i]? <;> simp [replaceAt, at?, hi, hinside]
      · simp [replaceAt, at?, hij]

/-- Nothing changes if the path leads nowhere or the new subterm is the old one. -/
theorem replaceAt_eq_self {t u : Term} {path : List Nat} (h : ∀ w, t.at? path = some w → u = w) :
    t.replaceAt path u = t := by
  induction path generalizing t with
  | nil => exact h t rfl
  | cons i path ih =>
    cases t with
    | var x | const c => rfl
    | app f args =>
      rw [replaceAt]
      congr 1
      refine List.ext_getElem? fun j => ?_
      rw [List.getElem?_modify]
      split
      · rename_i hij
        subst hij
        cases hi : args[i]? with
        | none => rfl
        | some s => exact congrArg some (ih fun w hw => h w (by rw [at?, hi]; exact hw))
      · simp

/-- A walk notes the listed paths, which increase and lead to exactly the subterms that are
no variables. What replaces a subterm is read back at its path, replacing a subterm by itself
changes nothing, and places neither above nor below it keep what they hold. At a path that
leads nowhere, nothing is replaced. -/
theorem positions_exact (t : Term) :
    (∀ here found, t.walk ⟨here, found⟩ = ⟨here, found ++ t.positions.map (here ++ ·)⟩) ∧
    t.positions.Pairwise (· < ·) ∧
    (∀ path, path ∈ t.positions ↔ ∃ u, t.at? path = some u ∧ u.isVar = false) ∧
    (∀ path w, t.at? path = some w →
      (∀ u, (t.replaceAt path u).at? path = some u) ∧
      t.replaceAt path w = t ∧
      ∀ u other, ¬ path <+: other → ¬ other <+: path →
        (t.replaceAt path u).at? other = t.at? other) ∧
    ∀ path, t.at? path = none → ∀ u, t.replaceAt path u = t := by
  refine ⟨walk_eq t, pairwise_positions t, fun _ => mem_positions, ?_, ?_⟩
  · intro path w hw
    refine ⟨fun u => ?_, replaceAt_eq_self (by simp [hw]), fun u other h h' => ?_⟩
    · simp [at?_replaceAt_above List.prefix_rfl, hw, replaceAt]
    · exact at?_replaceAt_elsewhere h h' u
  · intro path hpath u
    exact replaceAt_eq_self (by simp [hpath])

end Entailment.Term
