import KeyExport.Proofs.Xml.Basename
import KeyExport.Proofs.Xml.Textual

/-!
# Elements that are text

Keys on their own and documents are text, complete or not. Below a given parent a name may be cut
anywhere, as bytes are counted there: the element is text unless the cut is inside a character, as the
separators that are skipped are characters of their own.
-/

namespace KeyExport

open Bytes (ofString)

/-- What is in memory is text, even if the export was refused. Read as text it is the same, byte by byte. -/
structure Export.ReadsBack (e : Export) : Prop where
  text : IsText e.inMemory
  whole : ∀ n, e.resultInMemory = .ok n →
    ∃ s, e.rendering.toText = .ok s ∧ ofString s = e.inMemory
  refused : ∀ x, e.resultInMemory = .error x →
    ∃ d, x = .nameTooLong d ∧ e.rendering.toText = .error d

theorem Export.readsBack_of_textual {e : Export} (textual : Textual e.rendering.fragments) :
    e.ReadsBack := by
  refine ⟨?_, ?_, ?_⟩
  · rw [e.inMemory_eq]
    exact textual.flatten
  · intro n ok
    rw [e.resultInMemory_eq] at ok
    rw [e.inMemory_eq]
    exact Rendering.toText_of_textual textual (Rendering.outcome_eq_ok_iff.mp ok).1
  · intro x failed
    obtain ⟨d, rfl, refusal⟩ := Memory.writeTo_error_iff.mp failed
    refine ⟨d, rfl, ?_⟩
    rw [Rendering.toText, refusal]
    rfl

namespace Xml

theorem readsBack_key (k : Key) (o : Options) : (Export.key k none o).ReadsBack := by
  apply Export.readsBack_of_textual
  apply textual_key
  intro rest named
  cases Naming.basename?_of_ofKey named

theorem readsBack_document (ks : KeySet) (o : Options) : (Export.document ks o).ReadsBack :=
  Export.readsBack_of_textual (textual_document ks o)

theorem isText_rest_iff {p : Parent} {name : String} (within : p.compared ≤ name.utf8ByteSize) :
    IsText (p.rest name) ↔ (⟨p.compared⟩ : String.Pos.Raw).IsValid name := by
  obtain ⟨n, run⟩ := Text.exists_run slash ((ofString name).drop p.compared)
  have separators : IsText (List.replicate n slash) := by
    apply isText_of_small
    intro x mem
    rw [List.eq_of_mem_replicate mem]
    decide
  -- Skipping separators leaves text text, so only the place of the cut counts.
  rw [← isText_drop_iff within, run]
  exact ⟨separators.append, separators.of_append_left⟩

theorem isText_basename_element_iff {b : Bytes} {k : Key} {condensed : Bool} :
    IsText (element (.basename b) k condensed).flatten ↔ IsText b := by
  have last : IsText (ofString "\"" ++ (body condensed k.value k.comment).flatten) :=
    (isText_ofString _).append (textual_body condensed k.value k.comment).flatten
  rw [flatten_element, Naming.head, List.append_assoc, List.append_assoc]
  exact isText_between_iff (isText_ofString _) last

theorem isText_key_iff {k : Key} {p : Parent} {o : Options} :
    IsText (key k (some p) o).bytes ↔
      ¬ofString "<key basename=\"" <+: (key k (some p) o).bytes ∨
        (⟨p.compared⟩ : String.Pos.Raw).IsValid k.name := by
  rw [basename_front_iff]
  by_cases cuts : p.Cuts k.name
  · rw [key_of_cuts cuts, Rendering.bytes, isText_basename_element_iff, isText_rest_iff cuts.inName]
    simp [cuts]
  · have alone : IsText (key k none o).bytes := by
      have text := (readsBack_key k o).text
      rwa [Export.inMemory_eq] at text
    rw [key_of_not_cuts cuts]
    simp [cuts, alone]

/-- Whatever is in memory of keys on their own and of documents is text and is read back as such. Below a
given parent what is in memory of a key, if it shows a basename, is text just if no character of the name
is cut. -/
theorem text_unless_character_cut :
    (∀ (k : Key) (o : Options), (Export.key k none o).ReadsBack) ∧
      (∀ (ks : KeySet) (o : Options), (Export.document ks o).ReadsBack) ∧
      ∀ (k : Key) (p : Parent) (o : Options),
        IsText (Export.key k (some p) o).inMemory ↔
          ¬ofString "<key basename=\"" <+: (Export.key k (some p) o).inMemory ∨
            (⟨p.compared⟩ : String.Pos.Raw).IsValid k.name := by
  refine ⟨readsBack_key, readsBack_document, ?_⟩
  intro k p o
  rw [Export.inMemory_eq]
  exact isText_key_iff

end Xml

end KeyExport
