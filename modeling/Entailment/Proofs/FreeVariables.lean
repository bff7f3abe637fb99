import Entailment.Proofs.Truth

/-! The free variables of a formula. The collector passes its terms from left to
right and notes every variable once, so that what it finds depends only on the
list of all free occurrences. -/
namespace Entailment

/-- Notes a variable unless it was noted before. -/
def noteVar (found : List Symbol) (x : Symbol) : List Symbol :=
  if found.contains x then found else found ++ [x]

theorem noteVar_of_mem {found : List Symbol} {x : Symbol} (h : x ∈ found) : noteVar found x = found :=
  if_pos (List.contains_iff_mem.mpr h)

theorem mem_foldl_noteVar {found xs : List Symbol} {x : Symbol} :
    x ∈ xs.foldl noteVar found ↔ x ∈ found ∨ x ∈ xs := by
  induction xs generalizing found with
  | nil => simp
  | cons y ys ih =>
    rw [List.foldl_cons, ih, noteVar]
    split
    · rename_i hy
      rw [List.contains_iff_mem] at hy
      grind
    · simp [or_assoc]

theorem nodup_foldl_noteVar {found xs : List Symbol} (h : found.Nodup) :
    (xs.foldl noteVar found).Nodup := by
  induction xs generalizing found with
  | nil => exact h
  | cons x xs ih =>
    rw [List.foldl_cons, noteVar]
    split
    · exact ih h
    · rename_i hx
      refine ih (List.nodup_append.mpr ⟨h, List.nodup_singleton x, fun y hy z hz => ?_⟩)
      rw [List.mem_singleton.mp hz]
      exact fun heq => hx (List.contains_iff_mem.mpr (heq ▸ hy))

/-- Noting what was noted from a list is noting the list. -/
theorem foldl_noteVar_filter (p : Symbol → Bool) (found seen xs : List Symbol) :
    ((xs.foldl noteVar seen).filter p).foldl noteVar found =
      ((seen ++ xs).filter p).foldl noteVar found := by
  induction xs generalizing seen with
  | nil => simp
  | cons x xs ih =>
    rw [List.foldl_cons, ih]
    by_cases hx : x ∈ seen
    · rw [noteVar_of_mem hx, List.filter_append, List.filter_append, List.foldl_append,
        List.foldl_append, List.filter_cons]
      split
      · rename_i hp
        rw [List.foldl_cons, noteVar_of_mem]
        exact mem_foldl_noteVar.mpr (.inr (List.mem_filter.mpr ⟨hx, hp⟩))
      · rfl
    · rw [noteVar, if_neg (by simpa using hx), List.append_assoc]
      rfl

namespace Term

mutual

/-- The variables of a term from left to right, as often as they occur. -/
def varList : Term → List Symbol
  | .var x => [x]
  | .const _ => []
  | .app _ args => varLists args

def varLists : List Term → List Symbol
  | [] => []
  | t :: ts => t.varList ++ varLists ts

end

theorem varLists_eq (ts : List Term) : varLists ts = ts.flatMap varList := by
  induction ts with
  | nil => rfl
  | cons t ts ih => rw [varLists, ih, List.flatMap_cons]

theorem mem_varList {t : Term} {x : Symbol} : x ∈ t.varList ↔ t.hasVar x = true := by
  induction t using rec_args with
  | var y => simp [varList]
  | const c => simp [varList]
  | app f args ih =>
    rw [varList, varLists_eq, List.mem_flatMap, hasVar_app]
    exact exists_congr fun t => and_congr_right (ih t)

theorem varList_rename (π : Symbol → Symbol) (t : Term) :
    (t.rename π).varList = t.varList.map π := by
  induction t using rec_args with
  | var x | const c => rfl
  | app f args ih =>
    rw [rename, subst_app, varList, varList, varLists_eq, varLists_eq, List.flatMap_map,
      List.map_flatMap]
    exact List.flatMap_congr ih

theorem addVars_eq (found : List Symbol) (t : Term) :
    t.addVars found = t.varList.foldl noteVar found := by
  induction t using rec_args generalizing found with
  | var x | const c => rfl
  | app f args ih =>
    rw [addVars, addVarsAll_eq, varList, varLists_eq]
    induction args generalizing found with
    | nil => rfl
    | cons t ts ihs =>
      rw [List.foldl_cons, List.flatMap_cons, List.foldl_append, ih t List.mem_cons_self,
        ihs fun u hu => ih u (List.mem_cons_of_mem t hu)]

theorem varsOf_eq (ts : List Term) : varsOf ts = (ts.flatMap varList).foldl noteVar [] := by
  rw [← varLists_eq]
  exact addVars_eq [] (app default ts)

theorem nodup_varsOf (ts : List Term) : (varsOf ts).Nodup := by
  rw [varsOf_eq]
  exact nodup_foldl_noteVar List.nodup_nil

end Term

namespace Formula

/-- The free occurrences of variables from left to right. -/
def freeList : Formula → List Symbol
  | .rel _ args => args.flatMap Term.varList
  | .eq l r => l.varList ++ r.varList
  | .not f => f.freeList
  | .and f g | .or f g | .imp f g | .iff f g => f.freeList ++ g.freeList
  | .all x f | .ex x f => f.freeList.filter (· ≠ x)

theorem mem_freeList {f : Formula} {x : Symbol} : x ∈ f.freeList ↔ f.Free x := by
  induction f with
  | rel r args =>
    rw [freeList, List.mem_flatMap]
    exact exists_congr fun t => and_congr_right fun _ => Term.mem_varList
  | eq l r => rw [freeList, List.mem_append, Term.mem_varList, Term.mem_varList, Free]
  | not f ih => exact ih
  | and f g ihf ihg | or f g ihf ihg | imp f g ihf ihg | iff f g ihf ihg =>
    rw [freeList, List.mem_append, ihf, ihg, Free]
  | all y f ih | ex y f ih => rw [freeList, List.mem_filter, ih, Free, decide_eq_true_iff, and_comm]

theorem addFree_eq_foldl (bound found : List Symbol) (ts : List Term) :
    addFree bound found ts =
      ((ts.flatMap Term.varList).filter (· ∉ bound)).foldl noteVar found := by
  have hskip (xs : List Symbol) : xs.foldl
      (fun found x => if bound.contains x || found.contains x then found else found ++ [x]) found =
      (xs.filter (· ∉ bound)).foldl noteVar found := by
    rw [List.foldl_filter]
    congr 1
    funext found x
    by_cases hx : x ∈ bound
    · simp [hx]
    · simp [hx, noteVar]
  rw [addFree, hskip, Term.varsOf_eq, foldl_noteVar_filter, List.nil_append]

theorem collectFree_eq (bound found : List Symbol) (f : Formula) :
    collectFree bound found f = (f.freeList.filter (· ∉ bound)).foldl noteVar found := by
  induction f generalizing bound found with
  | rel r args => exact addFree_eq_foldl bound found args
  | eq l r =>
    rw [collectFree, addFree_eq_foldl, freeList]
    simp
  | not f ih => exact ih bound found
  | and f g ihf ihg | or f g ihf ihg | imp f g ihf ihg | iff f g ihf ihg =>
    rw [collectFree, ihg, ihf, freeList, List.filter_append, List.foldl_append]
  | all x f ih | ex x f ih =>
    rw [collectFree, ih, freeList, List.filter_filter]
    congr 2
    funext y
    simp [Bool.and_comm]

/-- The collector notes the free occurrences one after the other. -/
theorem freeVars_eq (f : Formula) : f.freeVars = f.freeList.foldl noteVar [] := by
  rw [freeVars, collectFree_eq]
  simp

end Formula

end Entailment
