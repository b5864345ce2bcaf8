import KeyExport.Proofs.Text.Textual
import KeyExport.Proofs.Xml.Naming

/-!
# Documents are text

All that is said of a key is text, its basename included where the parent ends between two characters
of its name, as a common parent does. So whatever is said of a document is text, be it refused or not.
-/

namespace KeyExport.Xml

open Bytes (ofString)

theorem textual_cosmetic (condensed : Bool) (s : String) : Textual (cosmetic condensed s) := by
  unfold cosmetic
  split <;> simp

theorem textual_ending (condensed : Bool) (comment : Option String) :
    Textual (ending condensed comment) := by
  cases comment <;> simp [ending, commentElement, textual_cosmetic]

theorem textual_body (condensed : Bool) (value : Value) (comment : Option String) :
    Textual (body condensed value comment) := by
  cases value with
  | absent => cases comment <;> simp [body, textual_cosmetic, textual_ending]
  | text s =>
    dsimp only [body]
    split
    · cases comment <;> simp [valueAttribute, textual_cosmetic, textual_ending]
    · simp [textElement, textual_cosmetic, textual_ending]
  | binary data =>
    simp [body, binaryElement, Base64.isText_encode, textual_cosmetic, textual_ending]

/-- An element is text when its basename, if it has one, is. -/
theorem textual_element {naming : Naming} (basename : ∀ rest, naming = .basename rest → IsText rest)
    (k : Key) (condensed : Bool) : Textual (element naming k condensed) := by
  rw [element, textual_append]
  refine ⟨?_, textual_body condensed k.value k.comment⟩
  cases naming with
  | name s => simp [Naming.fragments]
  | basename rest => simp [Naming.fragments, basename rest rfl]

theorem textual_key {k : Key} {parent : Option Parent} {o : Options}
    (basename : ∀ rest, Naming.ofKey k parent o = .ok (.basename rest) → IsText rest) :
    Textual (key k parent o).fragments := by
  unfold key
  split
  · next naming found =>
    refine textual_element ?_ k o.condensed
    rintro rest rfl
    exact basename rest found
  · exact textual_nil

/-- Below the common parent of a document a basename begins with a character of the name. -/
theorem isText_basename {ks : KeySet} {o : Options} {k : Key} (mem : k ∈ ks.keys) {rest : Bytes}
    (h : Naming.ofKey k (documentParent ks o) o = .ok (.basename rest)) : IsText rest := by
  have cut := Naming.basename?_of_ofKey h
  unfold documentParent at cut
  cases found : parent? ks o with
  | none =>
    rw [found] at cut
    cases cut
  | some p =>
    rw [found] at cut
    obtain ⟨r, whole⟩ := prefix_of_parent? found mem
    have chars := basename?_append p.toList r
    rw [whole] at chars
    have same := chars.symm.trans cut
    split at same
    · cases same
    · rw [← Option.some.inj same]
      exact isText_ofChars _

theorem textual_opening (ks : KeySet) (o : Options) : Textual (opening ks o) := by
  unfold opening header
  rw [textual_append]
  constructor
  · split
    · cases o.condensed <;> simp [cosmetic, Bytes.ofNat]
    · simp
  · cases parent? ks o <;> simp

theorem textual_document (ks : KeySet) (o : Options) : Textual (document ks o).fragments := by
  refine Rendering.textual_append (Rendering.textual_append ?_ ?_) ?_
  · exact textual_opening ks o
  · refine Rendering.textual_concat_map fun k mem => textual_key fun rest named => ?_
    exact isText_basename mem named
  · simp

end KeyExport.Xml
