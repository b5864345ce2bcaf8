import KeyExport.Sink.Buffered
import KeyExport.Xml.Document

/-!
# Writers

A writer keeps a buffer in front of a sink and writes keys and documents with the same options. It counts
the bytes of the calls that succeeded. A document is flushed when it is complete.
-/

namespace KeyExport.Xml

structure Writer (σ : Type) where
  options : Options
  out : Buffered σ
  written : Nat := 0

namespace Writer

variable {σ : Type} [Sink σ]

def ofSink (s : σ) (o : Options) : Writer σ := { options := o, out := { sink := s } }

/-- The writer after a call with the given result. -/
def after (w : Writer σ) (result : Except ExportError Nat) (out : Buffered σ) : Writer σ :=
  { w with out, written := w.written + result.toOption.getD 0 }

def writeKey (w : Writer σ) (k : Key) (parent : Option Parent) :
    Except ExportError Nat × Writer σ :=
  let (result, out) := (key k parent w.options).writeTo w.out
  (result, w.after result out)

def writeKeySet (w : Writer σ) (ks : KeySet) : Except ExportError Nat × Writer σ :=
  match (document ks w.options).writeTo w.out with
  | (.error e, out) => (.error e, w.after (.error e) out)
  | (.ok n, out) =>
    let (flushed, out) := out.flush
    let result := (flushed.map fun _ => n).mapError .sink
    (result, w.after result out)

def finish (w : Writer σ) : Except Fault Unit × σ := w.out.finish

def release (w : Writer σ) : σ := w.out.release

end Writer

end KeyExport.Xml
