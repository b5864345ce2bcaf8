import KeyExport.Key
import KeyExport.Sink.Basic
import KeyExport.Text.Quoted
import KeyExport.Text.Utf8

/-!
# Renderings

What an export has to say is a list of fragments, each handed over on its own, and perhaps the key at
which it cannot go on. Fragments of a rendering that is refused have still been said. Handing one over
reports the first thing that goes wrong: the sink's fault, or, once all is handed over, the refusal.
-/

namespace KeyExport

inductive ExportError where
  | nameTooLong (e : NameTooLong)
  | sink (f : Fault)
deriving DecidableEq, Repr

def NameTooLong.message (e : NameTooLong) : String :=
  "resolved name of " ++ Text.quoted e.name ++ " is " ++ Text.numeral e.length ++ " bytes, limit is " ++
    Text.numeral maxPathLength

def ExportError.message : ExportError → String
  | nameTooLong e => e.message
  | sink f => "I/O error: " ++ f.message

structure Rendering where
  fragments : List Bytes := []
  refusal : Option NameTooLong := none
deriving DecidableEq

namespace Rendering

/-- Nothing is said after a refusal. -/
def append (r s : Rendering) : Rendering :=
  match r.refusal with
  | some _ => r
  | none => ⟨r.fragments ++ s.fragments, s.refusal⟩

instance : Append Rendering := ⟨append⟩

def concat (rs : List Rendering) : Rendering := rs.foldr (· ++ ·) {}

def refuse (e : NameTooLong) : Rendering := ⟨[], some e⟩

def bytes (r : Rendering) : Bytes := r.fragments.flatten

theorem append_of_refusal_eq_none {r : Rendering} (h : r.refusal = none) (s : Rendering) :
    r ++ s = ⟨r.fragments ++ s.fragments, s.refusal⟩ := by
  show append r s = _
  simp [append, h]

theorem append_of_refusal_eq_some {r : Rendering} {e : NameTooLong} (h : r.refusal = some e)
    (s : Rendering) : r ++ s = r := by
  show append r s = _
  simp [append, h]

/-- How many bytes were handed over, or what went wrong first. -/
def writeTo {σ : Type} [Sink σ] (r : Rendering) (s : σ) : Except ExportError Nat × σ :=
  match Sink.writeFragments s 0 r.fragments with
  | (.error f, t) => (.error (.sink f), t)
  | (.ok n, t) => (r.refusal.elim (.ok n) fun e => .error (.nameTooLong e), t)

/-- The whole as text; bytes that are no text are replaced. -/
def toText (r : Rendering) : Except NameTooLong String :=
  r.refusal.elim (.ok (Utf8.lossy r.bytes)) .error

end Rendering

end KeyExport
