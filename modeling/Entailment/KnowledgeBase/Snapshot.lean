import Entailment.KnowledgeBase.Basic
import Entailment.Seal.Basic

/-! Snapshots: the formulas of a knowledge base under a seal, from which the
base can be rebuilt. -/
namespace Entailment

structure SnapshotEntry where
  provenance : Provenance
  formula : Formula
deriving DecidableEq, Inhabited

structure Snapshot where
  entries : List SnapshotEntry
  sealText : String
deriving DecidableEq, Inhabited

inductive RestoreError where
  /-- The seal does not fit the entries. -/
  | modified
  | clausify (e : ClausifyError)
deriving DecidableEq, Repr

namespace RestoreError

def message (σ : Symbols) : RestoreError → String
  | .modified => "The snapshot has been modified"
  | .clausify e => e.message σ

end RestoreError

namespace Snapshot

/-- The text that the seal covers. -/
def info (σ : Symbols) (s : Snapshot) : String :=
  "kbase|entries=[" ++
    ",".intercalate (s.entries.map fun e => e.provenance.text ++ ":" ++ e.formula.render σ) ++ "]"

/-- The seal that fits the entries. -/
def properSeal (σ : Symbols) (s : Snapshot) : String := Seal.ofText (s.info σ)

def isIntact (σ : Symbols) (s : Snapshot) : Bool := Seal.verifies (s.info σ) s.sealText

/-- The snapshot with the seal that fits its entries. -/
def reseal (σ : Symbols) (s : Snapshot) : Snapshot := { s with sealText := s.properSeal σ }

end Snapshot

namespace KnowledgeBase

def snapshot (σ : Symbols) (kb : KnowledgeBase) : Snapshot :=
  Snapshot.reseal σ ⟨kb.entries.map fun e => ⟨e.provenance, e.formula⟩, ""⟩

/-- Adds the entries of a snapshot one after the other, up to the first failure. -/
def addEntries : List SnapshotEntry → KnowledgeBase →
    SessionM (Except ClausifyError KnowledgeBase)
  | [], kb => return .ok kb
  | e :: es, kb => do
    match ← kb.add e.formula e.provenance with
    | (.error err, _) => return .error err
    | (.ok (), kb) => addEntries es kb

/-- Rebuilds a base from an intact snapshot. Lemmas are not proven again. -/
def restore (s : Snapshot) (limits : Limits) : SessionM (Except RestoreError KnowledgeBase) := do
  if s.isIntact (← get).symbols then
    match ← (new limits).addEntries s.entries with
    | .error e => return .error (.clausify e)
    | .ok kb => return .ok kb
  else return .error .modified

end KnowledgeBase

end Entailment
