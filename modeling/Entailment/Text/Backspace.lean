import Entailment.Text.Blank
import Entailment.Text.Cluster

/-! Backspaces in a line, each of which takes back the last cluster before it. -/
namespace Entailment.Text

def backspace : Char := '\x08'

/-- A line as far as it has been typed: its characters backwards, and the sizes
of its clusters in bytes, the last one first. A size is kept in one byte, so that
only a part of a cluster of more than 255 bytes can be taken back. -/
structure Draft where
  chars : List Char
  sizes : List UInt8
deriving DecidableEq, Inhabited, Repr

namespace Draft

def empty : Draft := ⟨[], []⟩

/-- Drops so many bytes from the end of a text that is given backwards, unless that
would leave a part of a character. -/
def dropBytes : Nat → List Char → Option (List Char)
  | 0, cs => some cs
  | _ + 1, [] => none
  | n + 1, c :: cs => if c.utf8Size ≤ n + 1 then dropBytes (n + 1 - c.utf8Size) cs else none

def push (cluster : List Char) (d : Draft) : Draft :=
  ⟨cluster.reverse ++ d.chars, UInt8.ofNat (byteCount cluster) :: d.sizes⟩

/-- Takes back the last cluster, if there is one. -/
def pop (d : Draft) : Option Draft :=
  match d.sizes with
  | [] => some d
  | n :: sizes => (dropBytes n.toNat d.chars).map (⟨·, sizes⟩)

def type (cluster : List Char) (d : Draft) : Option Draft :=
  if cluster = [backspace] then d.pop else some (d.push cluster)

end Draft

/-- The line that is left after all backspaces, unless one of them splits a character. -/
def applyBackspaces (cs : List Char) : Option (List Char) :=
  if cs.contains backspace then
    ((clusters cs).foldlM (fun (d : Draft) cluster => d.type cluster) Draft.empty).map (·.chars.reverse)
  else some cs

end Entailment.Text
