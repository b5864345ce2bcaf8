import KeyExport.Dump.Listing
import KeyExport.Proofs.Text.Ascii

/-!
# Fields of a listing

Nothing is escaped in a field, but it begins with a letter of its kind and the size of its content. So a
field is told from what follows it, whatever its content looks like, and a run of fields from what follows
the run, if that begins with no such letter.
-/

namespace KeyExport.Dump

open Bytes (ofString ofNat)

inductive Kind where
  | name
  | text
  | binary
  | comment
deriving DecidableEq

def Kind.label : Kind → String
  | name => "Name["
  | text => "String["
  | binary => "Binary["
  | comment => "Comment["

structure Field where
  kind : Kind
  size : Nat
  content : Bytes

namespace Field

def bytes (f : Field) : Bytes := (field f.kind.label f.size f.content).flatten

/-- The size tells the length of the content; only in binary content no terminator counts. -/
def Sized (f : Field) : Prop := f.size = f.content.length + if f.kind = .binary then 0 else 1

/-- How something begins that is no field. -/
def Ends (b : Bytes) : Prop := b.head? = some (asciiByte ' ') ∨ b.head? = some (asciiByte '\n')

theorem bytes_append (f : Field) (r : Bytes) :
    f.bytes ++ r = ofString f.kind.label ++
      (ofNat f.size ++ asciiByte ']' :: (ofString ": " ++ (f.content ++ (ofString " : " ++ r)))) := by
  have bracket : ofString "]: " = asciiByte ']' :: ofString ": " := rfl
  simp only [bytes, field, List.flatten_cons, List.flatten_nil, List.append_assoc, List.append_nil,
    bracket, List.cons_append]

theorem head?_label_append (kind : Kind) (b : Bytes) :
    (ofString kind.label ++ b).head? = (ofString kind.label).head? := by
  cases kind <;> rfl

theorem not_ends (f : Field) (r : Bytes) : ¬Ends (f.bytes ++ r) := by
  rw [Ends, bytes_append, head?_label_append]
  cases f.kind <;> decide

/-- The kinds have different letters. -/
theorem label_append_cancel {j k : Kind} {a b : Bytes}
    (same : ofString j.label ++ a = ofString k.label ++ b) : j = k ∧ a = b := by
  have letters : ∀ j k : Kind, (ofString j.label).head? = (ofString k.label).head? → j = k := by
    intro j k
    cases j <;> cases k <;> decide
  have kinds : j = k := letters j k (by rw [← head?_label_append j a, same, head?_label_append])
  subst kinds
  exact ⟨rfl, List.append_cancel_left same⟩

theorem bytes_append_cancel {f g : Field} (hf : f.Sized) (hg : g.Sized) {r s : Bytes}
    (same : f.bytes ++ r = g.bytes ++ s) : f = g ∧ r = s := by
  rw [bytes_append, bytes_append] at same
  obtain ⟨kind, same⟩ := label_append_cancel same
  obtain ⟨size, same⟩ := Bytes.ofNat_append_cancel (by decide) (by decide) same
  -- sizes are exact, so both contents end at the same place whatever they hold
  have lengths : f.content.length = g.content.length := by
    unfold Sized at hf hg
    rw [kind, size] at hf
    omega
  obtain ⟨content, same⟩ := List.append_inj (List.append_cancel_left same) lengths
  refine ⟨?_, List.append_cancel_left same⟩
  cases f
  cases g
  cases kind
  cases size
  cases content
  rfl

theorem flatMap_bytes_cancel {fs gs : List Field} (hf : ∀ f ∈ fs, f.Sized) (hg : ∀ g ∈ gs, g.Sized)
    {r s : Bytes} (hr : Ends r) (hs : Ends s)
    (same : fs.flatMap bytes ++ r = gs.flatMap bytes ++ s) : fs = gs ∧ r = s := by
  induction fs generalizing gs with
  | nil =>
    cases gs with
    | nil => exact ⟨rfl, same⟩
    | cons g gs =>
      -- what follows one run would have to begin like the field that the other run goes on with
      rw [List.flatMap_nil, List.nil_append, List.flatMap_cons, List.append_assoc] at same
      exact absurd (same ▸ hr) (g.not_ends _)
  | cons f fs ih =>
    cases gs with
    | nil =>
      rw [List.flatMap_nil, List.nil_append, List.flatMap_cons, List.append_assoc] at same
      exact absurd (same ▸ hs) (f.not_ends _)
    | cons g gs =>
      rw [List.flatMap_cons, List.flatMap_cons, List.append_assoc, List.append_assoc] at same
      obtain ⟨firstF, othersF⟩ := List.forall_mem_cons.mp hf
      obtain ⟨firstG, othersG⟩ := List.forall_mem_cons.mp hg
      obtain ⟨rfl, later⟩ := bytes_append_cancel firstF firstG same
      obtain ⟨rfl, rest⟩ := ih othersF othersG later
      exact ⟨rfl, rest⟩

end Field

end KeyExport.Dump
