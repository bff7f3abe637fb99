import Entailment.Json.Snapshot
import Entailment.Timestamp

/-! State files, in which a knowledge base is kept from one run to the next. -/
namespace Entailment

structure StateFile where
  savedAt : Timestamp
  snapshot : Snapshot
deriving DecidableEq, Inhabited

/-- What is found at the path of a state file. -/
inductive FileContent where
  | missing
  | unreadable
  | text (s : String)
deriving DecidableEq, Inhabited, Repr

inductive StorageError where
  /-- The file cannot be read or written. -/
  | inaccessible
  /-- The text is not that of a state file. -/
  | malformed
  | restore (e : RestoreError)
deriving DecidableEq, Repr

namespace StorageError

def message (σ : Symbols) : StorageError → String
  | .inaccessible => "Could not access the state file"
  | .malformed => "Malformed state file"
  | .restore e => "Could not restore the knowledge base: " ++ e.message σ

end StorageError

namespace StateFile

def toJson (σ : Symbols) (f : StateFile) : Json :=
  .ofFields [("savedAt", .ofString f.savedAt.render), ("snapshot", f.snapshot.toJson σ)]

def ofJson : Nat → Json → Decoding StateFile
  | depth + 1, j =>
    match j.parts ["savedAt", "snapshot"] with
    | some [savedAt, snapshot] => do
      return ⟨← savedAt.text?.bind Timestamp.parse, ← Snapshot.ofJson depth snapshot⟩
    | _ => failure
  | 0, _ => failure

def render (σ : Symbols) (f : StateFile) : String := (f.toJson σ).renderIndented 0

def parse (text : String) : Naming (Option StateFile) :=
  match Json.parse text with
  | some j => (ofJson Json.maxDepth j).run
  | none => return none

end StateFile

namespace KnowledgeBase

/-- The text under which a base is saved. -/
def save (σ : Symbols) (now : Timestamp) (kb : KnowledgeBase) : String :=
  StateFile.render σ ⟨now, kb.snapshot σ⟩

/-- The base that was saved. A missing file is no error. -/
def load (content : FileContent) (limits : Limits) :
    SessionM (Except StorageError (Option KnowledgeBase)) := do
  match content with
  | .missing => return .ok none
  | .unreadable => return .error .inaccessible
  | .text s =>
    match ← SessionM.naming (StateFile.parse s) with
    | none => return .error .malformed
    | some file =>
      match ← restore file.snapshot limits with
      | .error e => return .error (.restore e)
      | .ok kb => return .ok (some kb)

end KnowledgeBase

end Entailment
