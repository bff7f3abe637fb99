import Entailment.StateFile

/-! Files as paths reach them. A tree gives each of its places a file or a directory.
A path is followed name by name, and every name must be looked up in a directory
that exists; only the place that the last name gives may still be empty. -/
namespace Entailment

/-- A place in a tree: the names that lead to it, the last one first. -/
abbrev Location := List String

/-- What stands at a place. -/
inductive Node where
  | file (content : String)
  /-- A directory. `isOpen` says whether new files may be put there. -/
  | directory (isOpen : Bool)
deriving DecidableEq, Inhabited, Repr

/-- Why a path cannot be followed. -/
inductive PathError where
  | missing
  /-- A name follows something that is no directory. -/
  | notDirectory
  /-- The path or one of its names is too long. -/
  | tooLong
deriving DecidableEq, Inhabited, Repr

/-- Nodes by place. Of two nodes at one place the first counts. -/
structure FileTree where
  nodes : List (Location × Node)
deriving Inhabited

namespace FileTree

/-- The bytes that a name may take. -/
def maxName : Nat := 255

/-- The bytes that a path may take. -/
def maxPath : Nat := 4095

def get? (t : FileTree) (l : Location) : Option Node := t.nodes.lookup l

/-- Puts a node at a place, over what was there. -/
def put (t : FileTree) (l : Location) (node : Node) : FileTree := ⟨(l, node) :: t.nodes⟩

theorem get?_put (t : FileTree) (l : Location) (node : Node) :
    (t.put l node).get? l = some node := by
  simp [put, get?]

theorem get?_put_of_ne (t : FileTree) {l k : Location} (node : Node) (h : k ≠ l) :
    (t.put l node).get? k = t.get? k := by
  have hb : (k == l) = false := by simpa using h
  simp [put, get?, List.lookup_cons, hb]

/-- Follows one name from a place, which must hold a directory. An empty name and a
dot stay there, and two dots lead to the directory around it. -/
def step (t : FileTree) (l : Location) (name : String) : Except PathError Location :=
  match t.get? l with
  | none => .error .missing
  | some (.file _) => .error .notDirectory
  | some (.directory _) =>
    if name == "" || name == "." then .ok l
    else if name == ".." then .ok l.tail
    else if maxName < name.utf8ByteSize then .error .tooLong
    else .ok (name :: l)

/-- The place that a path names from a working directory. -/
def locate (t : FileTree) (home : Location) (path : String) : Except PathError Location :=
  if path.isEmpty then .error .missing
  else if maxPath < path.utf8ByteSize then .error .tooLong
  else (path.splitOn "/").foldlM t.step (if path.startsWith "/" then [] else home)

/-- What is found at a path. -/
def read (t : FileTree) (home : Location) (path : String) : FileContent :=
  match t.locate home path with
  | .error .missing => .missing
  | .error _ => .unreadable
  | .ok l =>
    match t.get? l with
    | none => .missing
    | some (.file content) => .text content
    | some (.directory _) => .unreadable

/-- Whether a file can be written at a place: over a file, or as a new one in an open
directory. -/
def isWritable (t : FileTree) (l : Location) : Bool :=
  match t.get? l with
  | some (.file _) => true
  | some (.directory _) => false
  | none => t.get? l.tail == some (.directory true)

/-- The tree with a file written at a path, if that is possible. -/
def write? (t : FileTree) (home : Location) (path content : String) : Option FileTree :=
  match t.locate home path with
  | .error _ => none
  | .ok l => if t.isWritable l then some (t.put l (.file content)) else none

/-- What was written at a path is found at the place that the path names. -/
theorem get?_of_write? {t u : FileTree} {home l : Location} {path content : String}
    (hl : t.locate home path = .ok l) (h : t.write? home path content = some u) :
    u.get? l = some (.file content) := by
  simp only [write?, hl] at h
  split at h
  · cases h
    exact get?_put t l _
  · cases h

end FileTree

end Entailment
