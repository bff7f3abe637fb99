/-! Stable insertion sort, for the short lists that are shown or compared in a
fixed order. -/
namespace Entailment

/-- Puts an element in front of the first one that must not precede it. -/
def insertSorted {α : Type} (before : α → α → Bool) (a : α) : List α → List α
  | [] => [a]
  | b :: bs => if before b a then b :: insertSorted before a bs else a :: b :: bs

/-- Sorts by a strict order; elements that it does not tell apart keep their order. -/
def sortBy {α : Type} (before : α → α → Bool) (l : List α) : List α :=
  l.foldr (insertSorted before) []

end Entailment
