import Entailment.Text.BreakClass

/-! Clusters: the parts of a text that a reader takes for one character, such as a
letter with its accents. Whether a character still belongs to a cluster depends
only on the characters that the cluster has so far. -/
namespace Entailment.Text

namespace BreakClass

def isBreaking : BreakClass → Bool
  | .carriageReturn | .lineFeed | .control => true
  | _ => false

/-- Whether the class always belongs to what is before it. -/
def isAttached : BreakClass → Bool
  | .extend | .linker | .nonJoiner | .joiner | .spacingMark => true
  | _ => false

/-- Whether a mark may stand between a pictograph and its joiner. -/
def isMark : BreakClass → Bool
  | .extend | .linker | .nonJoiner => true
  | _ => false

/-- Whether a mark may stand inside a conjunct. -/
def isConjunctMark : BreakClass → Bool
  | .extend | .linker | .joiner => true
  | _ => false

/-- Whether two parts of a Hangul syllable go together. -/
def joinsSyllable : BreakClass → BreakClass → Bool
  | .leadingJamo, .leadingJamo => true
  | .leadingJamo, .vowelJamo => true
  | .leadingJamo, .openSyllable => true
  | .leadingJamo, .closedSyllable => true
  | .openSyllable, .vowelJamo => true
  | .openSyllable, .trailingJamo => true
  | .vowelJamo, .vowelJamo => true
  | .vowelJamo, .trailingJamo => true
  | .closedSyllable, .trailingJamo => true
  | .trailingJamo, .trailingJamo => true
  | _, _ => false

/-- Whether a consonant follows another one with a linker among the marks between
them. The classes are given backwards. -/
def awaitsConsonant (before : List BreakClass) : Bool :=
  (before.takeWhile isConjunctMark).contains .linker &&
    (before.dropWhile isConjunctMark).head? == some .consonant

/-- Whether a pictograph with its marks and a joiner come last. -/
def awaitsPictograph : List BreakClass → Bool
  | .joiner :: before => (before.dropWhile isMark).head? == some .pictograph
  | _ => false

/-- Whether an odd number of halves of flags comes last. -/
def awaitsRegional (before : List BreakClass) : Bool :=
  (before.takeWhile (· == .regional)).length % 2 == 1

/-- Whether a character of class `next` belongs to the cluster whose classes are
given backwards. -/
def continues (before : List BreakClass) (next : BreakClass) : Bool :=
  match before with
  | [] => true
  | last :: _ =>
    if last = .carriageReturn ∧ next = .lineFeed then true
    else if last.isBreaking || next.isBreaking then false
    else
      joinsSyllable last next || next.isAttached || last == .prepended ||
      (next == .consonant && awaitsConsonant before) ||
      (next == .pictograph && awaitsPictograph before) ||
      (next == .regional && awaitsRegional before)

end BreakClass

/-- The clusters of a text after the characters of an unfinished one, which are
given backwards with their classes. -/
def clustersFrom (current : List Char) (classes : List BreakClass) : List Char → List (List Char)
  | [] => if current.isEmpty then [] else [current.reverse]
  | c :: cs =>
    let next := breakClass c
    if BreakClass.continues classes next then clustersFrom (c :: current) (next :: classes) cs
    else current.reverse :: clustersFrom [c] [next] cs

def clusters (cs : List Char) : List (List Char) := clustersFrom [] [] cs

theorem flatten_clustersFrom (current : List Char) (classes : List BreakClass) (cs : List Char) :
    (clustersFrom current classes cs).flatten = current.reverse ++ cs := by
  induction cs generalizing current classes with
  | nil => cases current <;> simp [clustersFrom]
  | cons c cs ih =>
    simp only [clustersFrom]
    split <;> simp [ih]

/-- Nothing is lost. -/
theorem flatten_clusters (cs : List Char) : (clusters cs).flatten = cs := by
  simp [clusters, flatten_clustersFrom]

end Entailment.Text
