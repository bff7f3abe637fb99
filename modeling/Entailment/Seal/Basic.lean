import Entailment.Seal.Sha3

/-! Seals: digests by which a text that was kept elsewhere is known again. -/
namespace Entailment.Seal

/-- What every sealed text is preceded by. -/
def warning : String :=
  "i understand that modifying this knowledge base may lead to incorrect proofs|"

/-- Two upper-case hexadecimal digits. -/
def hexByte (b : UInt8) : List Char :=
  [b / 16, b % 16].map fun d => (Nat.digitChar d.toNat).toUpper

/-- The seal of a text: the digest in upper-case hexadecimal digits. -/
def ofText (text : String) : String :=
  String.ofList ((Sha3.digest (warning ++ text).toUTF8.toList).flatMap hexByte)

def verifies (text sealText : String) : Bool := ofText text == sealText

end Entailment.Seal
