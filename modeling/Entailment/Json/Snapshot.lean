import Entailment.Json.Formula
import Entailment.KnowledgeBase.Snapshot

/-! Snapshots as JSON. -/
namespace Entailment

namespace Provenance

def toJson (p : Provenance) : Json := .ofString p.text

def ofJson? (j : Json) : Option Provenance :=
  match j.choice? with
  | some "axiom" => some .asserted
  | some "lemma" => some .proven
  | _ => none

end Provenance

namespace SnapshotEntry

def toJson (σ : Symbols) (e : SnapshotEntry) : Json :=
  .ofFields [("provenance", e.provenance.toJson), ("formula", e.formula.toJson σ)]

def ofJson : Nat → Json → Decoding SnapshotEntry
  | depth + 1, j =>
    match j.parts ["provenance", "formula"] with
    | some [provenance, formula] => do
      return ⟨← Provenance.ofJson? provenance, ← Formula.ofJson depth formula⟩
    | _ => failure
  | 0, _ => failure

end SnapshotEntry

namespace Snapshot

def toJson (σ : Symbols) (s : Snapshot) : Json :=
  .ofFields [("entries", .array (s.entries.map (SnapshotEntry.toJson σ))),
    ("seal", .ofString s.sealText)]

def ofJson : Nat → Json → Decoding Snapshot
  | depth + 2, j =>
    match j.parts ["entries", "seal"] with
    | some [.array entries, sealText] => do
      return ⟨← entries.mapM (SnapshotEntry.ofJson depth), ← sealText.text?⟩
    | _ => failure
  | _, _ => failure

end Snapshot

end Entailment
