import Entailment.Proofs.Symbol
import Entailment.Session

/-! Computations inside a session. None of them takes a name out of the table or
changes its number. -/
namespace Entailment

namespace SessionM

variable {α β : Type}

section Apply

variable (t : Session)

theorem bind_apply (x : SessionM α) (f : α → SessionM β) : (x >>= f) t = f (x t).1 (x t).2 := rfl

theorem get_apply : (get : SessionM Session) t = (t, t) := rfl

theorem if_apply (p : Prop) [Decidable p] (x y : SessionM α) :
    (if p then x else y : SessionM α) t = if p then x t else y t := by
  split <;> rfl

theorem fst_naming (x : Naming α) : (naming x t).1 = (x t.symbols).1 := rfl

theorem symbols_naming (x : Naming α) : (naming x t).2.symbols = (x t.symbols).2 := rfl

theorem symbols_note (n : Note) : (note n t).2.symbols = t.symbols := rfl

end Apply

/-- Names that the session knows keep their numbers. -/
def Grows (x : SessionM α) : Prop := ∀ t, t.symbols ≤ (x t).2.symbols

theorem grows_pure (a : α) : Grows (pure a) := fun t => le_refl t.symbols

theorem grows_get : Grows (get : SessionM Session) := fun t => le_refl t.symbols

theorem grows_note (n : Note) : Grows (note n) := fun t => le_refl t.symbols

theorem grows_naming {x : Naming α} (h : ∀ σ, σ ≤ (x σ).2) : Grows (naming x) :=
  fun t => h t.symbols

theorem Grows.bind {x : SessionM α} {f : α → SessionM β} (hx : Grows x) (hf : ∀ a, Grows (f a)) :
    Grows (x >>= f) :=
  fun t => le_trans (hx t) (hf (x t).1 (x t).2)

theorem grows_ite {p : Prop} [Decidable p] {x y : SessionM α} (hx : Grows x) (hy : Grows y) :
    Grows (if p then x else y : SessionM α) := by
  split
  · exact hx
  · exact hy

theorem grows_foldlM {f : β → α → SessionM β} (h : ∀ b a, Grows (f b a)) (as : List α) (b : β) :
    Grows (as.foldlM f b) := by
  induction as generalizing b with
  | nil => exact grows_pure b
  | cons a as ih => exact (h b a).bind ih

theorem symbols_forM_note (f : α → Note) (as : List α) (t : Session) :
    (as.forM (fun a => note (f a)) t).2.symbols = t.symbols := by
  induction as generalizing t with
  | nil => rfl
  | cons a as ih => exact (ih (note (f a) t).2).trans (symbols_note t (f a))

end SessionM

/-- A session that knows the given names, numbered from zero. -/
def Session.knowing (names : List String) : Session :=
  { Session.new with symbols := (Symbols.internAll names .empty).2 }

end Entailment
