import KeyExport.Proofs.Xml.Naming
import Mathlib.Data.List.Nodup

/-!
# Who is who in a document

An element carries the name of its key or, below the common parent, what is left of the name after the
parent and all separators that follow. How many separators were skipped is not told: two keys look the
same just when their names differ there only. Where no name has two separators in a row, nobody does.
-/

namespace KeyExport.Path

/-- Below `p` the names have the same rest, after different numbers of separators. -/
def Alike (p m n : Path) : Prop :=
  ∃ i j rest, i ≠ j ∧ rest ≠ [] ∧ rest.head? ≠ some separator ∧
    m = p ++ (List.replicate i separator ++ rest) ∧ n = p ++ (List.replicate j separator ++ rest)

end KeyExport.Path

namespace KeyExport.Xml

open Bytes (ofString ofChars)

end KeyExport.Xml
