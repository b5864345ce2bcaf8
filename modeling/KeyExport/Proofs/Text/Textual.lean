import KeyExport.Proofs.Rendering
import KeyExport.Proofs.Text.Ascii
import KeyExport.Proofs.Text.Base64

/-!
# Bytes that are text

A rendering all of whose fragments are text is text as a whole, complete or not: then reading it as text
gives back all of its bytes. A text that is cut in two remains text just where no character is cut.
-/

namespace KeyExport

open Bytes (ofString ofChars)

def IsText (b : Bytes) : Prop := ∃ s, ofString s = b

@[simp] theorem isText_ofString (s : String) : IsText (ofString s) := ⟨s, rfl⟩

theorem isText_ofChars (cs : List Char) : IsText (ofChars cs) :=
  ⟨String.ofList cs, Bytes.ofString_ofList cs⟩

theorem IsText.append {a b : Bytes} (first : IsText a) (second : IsText b) : IsText (a ++ b) := by
  obtain ⟨s, rfl⟩ := first
  obtain ⟨t, rfl⟩ := second
  exact ⟨s ++ t, Bytes.ofString_append s t⟩

/-- What follows a text is text if the whole is: its characters are read back one by one. -/
theorem IsText.of_append_left {a b : Bytes} (first : IsText a) (whole : IsText (a ++ b)) : IsText b := by
  obtain ⟨s, rfl⟩ := first
  obtain ⟨t, whole⟩ := whole
  unfold ofString at whole
  generalize s.toList = cs at whole
  generalize t.toList = ds at whole
  induction cs generalizing ds with
  | nil =>
    obtain rfl : ofChars ds = b := whole
    exact isText_ofChars ds
  | cons c cs ih =>
    cases ds with
    | nil => simp at whole
    | cons d ds =>
      rw [Bytes.ofChars_cons, Bytes.ofChars_cons, List.append_assoc] at whole
      have same : d = c := by
        have read := congrArg Utf8.first? whole
        rw [Utf8.first?_utf8EncodeChar_append, Utf8.first?_utf8EncodeChar_append] at read
        exact Option.some.inj read
      subst same
      exact ih ds (List.append_cancel_left whole)

theorem IsText.isUTF8FirstByte {x : UInt8} {b : Bytes} (text : IsText (x :: b)) :
    x.IsUTF8FirstByte := by
  obtain ⟨s, text⟩ := text
  have bytes : s.toByteArray = (x :: b).toByteArray := by rw [← Bytes.toByteArray_ofString, text]
  have size : 0 < (x :: b).toByteArray.size := by simp
  have first := (bytes ▸ s.isValidUTF8).isUTF8FirstByte_getElem_zero size
  rwa [List.getElem_toByteArray] at first

theorem exists_drop_ofString {s : String} {n : Nat} (inside : n < s.utf8ByteSize) :
    ∃ b, (ofString s).drop n = s.getUTF8Byte ⟨n⟩ inside :: b := by
  have within : n < (ofString s).length := by rwa [Bytes.length_ofString]
  refine ⟨(ofString s).drop (n + 1), ?_⟩
  rw [List.drop_eq_getElem_cons within]
  show _ = s.toByteArray[n] :: _
  simp only [← Bytes.toByteArray_ofString, List.getElem_toByteArray]

/-- The end of a text is text just if it begins with a character. -/
theorem isText_drop_iff {s : String} {n : Nat} (within : n ≤ s.utf8ByteSize) :
    IsText ((ofString s).drop n) ↔ (⟨n⟩ : String.Pos.Raw).IsValid s := by
  constructor
  · intro text
    apply String.Pos.Raw.isValid_iff_isUTF8FirstByte.mpr
    rcases Nat.eq_or_lt_of_le within with all | inside
    · exact .inl (String.Pos.Raw.ext all)
    · obtain ⟨b, «end»⟩ := exists_drop_ofString inside
      rw [«end»] at text
      exact .inr ⟨inside, text.isUTF8FirstByte⟩
  · intro valid
    obtain ⟨t, u, rfl, same⟩ := String.Pos.Raw.isValid_iff_exists_append.mp valid
    obtain rfl : n = t.utf8ByteSize := congrArg String.Pos.Raw.byteIdx same
    rw [Bytes.ofString_append, ← Bytes.length_ofString, List.drop_left]
    exact isText_ofString u

theorem IsText.of_append_right {a b : Bytes} (last : IsText b) (whole : IsText (a ++ b)) : IsText a := by
  obtain ⟨s, whole⟩ := whole
  have within : a.length ≤ s.utf8ByteSize := by
    rw [← Bytes.length_ofString, whole, List.length_append]
    exact Nat.le_add_right _ _
  have cut : (ofString s).drop a.length = b := by rw [whole, List.drop_left]
  have valid := (isText_drop_iff within).mp (cut.symm ▸ last)
  obtain ⟨t, u, rfl, same⟩ := String.Pos.Raw.isValid_iff_exists_append.mp valid
  have length : (ofString t).length = a.length := by
    rw [Bytes.length_ofString]
    exact (congrArg String.Pos.Raw.byteIdx same).symm
  rw [Bytes.ofString_append] at whole
  exact ⟨t, (List.append_inj whole length).1⟩

/-- Text around some bytes does not make them text, nor keeps them from it. -/
theorem isText_between_iff {a b c : Bytes} (first : IsText a) (last : IsText c) :
    IsText (a ++ (b ++ c)) ↔ IsText b := by
  constructor
  · intro whole
    exact last.of_append_right (first.of_append_left whole)
  · intro middle
    exact first.append (middle.append last)

theorem exists_asciiByte_eq {x : UInt8} (small : x < 128) : ∃ c, IsAscii c ∧ asciiByte c = x := by
  have bound : x.toNat < 128 := UInt8.lt_iff_toNat_lt.mp small
  have value : (Char.ofNat x.toNat).val.toNat = x.toNat := by
    rw [Char.ofNat, dif_pos (.inl (by omega))]
    rfl
  have ascii : IsAscii (Char.ofNat x.toNat) := by
    rw [IsAscii, UInt32.le_iff_toNat_le, value]
    exact Nat.le_of_lt_succ bound
  refine ⟨_, ascii, ?_⟩
  rw [← UInt8.toNat_inj, toNat_asciiByte ascii, value]

theorem isText_of_small {b : Bytes} (small : ∀ x ∈ b, x < 128) : IsText b := by
  induction b with
  | nil => exact isText_ofChars []
  | cons x xs ih =>
    rw [List.forall_mem_cons] at small
    obtain ⟨c, ascii, rfl⟩ := exists_asciiByte_eq small.1
    have first := isText_ofChars [c]
    rw [Bytes.ofChars_cons_of_isAscii ascii] at first
    exact first.append (ih small.2)

theorem Base64.isText_encode (b : Bytes) : IsText (encode b) := by
  have letters : ∀ x ∈ alphabet, x < 128 := by decide +kernel
  apply isText_of_small
  intro x mem
  rcases mem_encode mem with letter | rfl
  · exact letters x letter
  · decide

/-- Fragments each of which is text. -/
def Textual (fs : List Bytes) : Prop := ∀ f ∈ fs, IsText f

@[simp] theorem textual_nil : Textual [] := by simp [Textual]

@[simp] theorem textual_cons {f : Bytes} {fs : List Bytes} :
    Textual (f :: fs) ↔ IsText f ∧ Textual fs := List.forall_mem_cons

@[simp] theorem textual_append {fs gs : List Bytes} :
    Textual (fs ++ gs) ↔ Textual fs ∧ Textual gs := List.forall_mem_append

theorem Textual.flatten {fs : List Bytes} (textual : Textual fs) : IsText fs.flatten := by
  induction fs with
  | nil => exact isText_ofChars []
  | cons f fs ih =>
    rw [textual_cons] at textual
    exact textual.1.append (ih textual.2)

namespace Rendering

theorem textual_append {r s : Rendering} (first : Textual r.fragments) (second : Textual s.fragments) :
    Textual (r ++ s).fragments := by
  cases refusal : r.refusal with
  | none =>
    rw [append_of_refusal_eq_none refusal]
    exact KeyExport.textual_append.mpr ⟨first, second⟩
  | some e =>
    rw [append_of_refusal_eq_some refusal]
    exact first

theorem textual_concat_map {α : Type} {f : α → Rendering} {as : List α}
    (each : ∀ a ∈ as, Textual (f a).fragments) : Textual (concat (as.map f)).fragments := by
  induction as with
  | nil => exact textual_nil
  | cons a as ih =>
    rw [List.forall_mem_cons] at each
    exact textual_append each.1 (ih each.2)

/-- The text of a rendering that is not refused is its bytes and nothing else. -/
theorem toText_of_textual {r : Rendering} (textual : Textual r.fragments) (complete : r.refusal = none) :
    ∃ s, r.toText = .ok s ∧ ofString s = r.bytes := by
  obtain ⟨s, text⟩ := textual.flatten
  refine ⟨s, ?_, text⟩
  rw [toText, complete, bytes, ← text, Utf8.lossy_ofString]
  rfl

end Rendering

end KeyExport
