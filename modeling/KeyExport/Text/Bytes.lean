import KeyExport.Text.Numeral

/-!
# Bytes

What reaches a sink is a list of bytes. Text becomes bytes one character after the other, so cutting
and comparing texts can be studied on lists.
-/

namespace KeyExport

abbrev Bytes := List UInt8

namespace Bytes

def ofChars (cs : List Char) : Bytes := cs.flatMap String.utf8EncodeChar

def ofString (s : String) : Bytes := ofChars s.toList

/-- The decimal digits of a number. -/
def ofNat (n : Nat) : Bytes := ofString (Text.numeral n)

/-- Whether there are at most `n` bytes; no more than these are counted. -/
def fits (n : Nat) (b : Bytes) : Bool := (b.drop n).isEmpty

@[simp] theorem fits_iff {n : Nat} {b : Bytes} : b.fits n = true ↔ b.length ≤ n := by
  simp [fits]

@[simp] theorem ofChars_nil : ofChars [] = [] := rfl

@[simp] theorem ofChars_cons (c : Char) (cs : List Char) :
    ofChars (c :: cs) = String.utf8EncodeChar c ++ ofChars cs := rfl

@[simp] theorem ofChars_append (cs ds : List Char) : ofChars (cs ++ ds) = ofChars cs ++ ofChars ds :=
  List.flatMap_append

@[simp] theorem ofString_append (s t : String) : ofString (s ++ t) = ofString s ++ ofString t := by
  simp [ofString]

theorem ofString_ofList (cs : List Char) : ofString (String.ofList cs) = ofChars cs := by
  simp [ofString]

theorem toByteArray_ofString (s : String) : (ofString s).toByteArray = s.toByteArray := by
  rw [← String.utf8Encode_toList]
  rfl

theorem length_ofString (s : String) : (ofString s).length = s.utf8ByteSize := by
  rw [← String.size_toByteArray, ← toByteArray_ofString, List.size_toByteArray]

theorem ofString_injective {s t : String} (h : ofString s = ofString t) : s = t := by
  rw [← String.toByteArray_inj, ← toByteArray_ofString, ← toByteArray_ofString, h]

theorem ofChars_injective {cs ds : List Char} (h : ofChars cs = ofChars ds) : cs = ds := by
  rw [← ofString_ofList, ← ofString_ofList] at h
  exact String.ofList_injective (ofString_injective h)

/-- A front of a text has fewer bytes, unless it is the whole text. -/
theorem length_ofChars_lt_of_prefix {cs ds : List Char} (front : cs <+: ds) (apart : ds ≠ cs) :
    (ofChars cs).length < (ofChars ds).length := by
  obtain ⟨r, rfl⟩ := front
  cases r with
  | nil => exact absurd (List.append_nil cs) apart
  | cons c r =>
    have first := List.length_pos_iff.mpr (String.utf8EncodeChar_ne_nil (c := c))
    rw [ofChars_append, ofChars_cons, List.length_append, List.length_append]
    omega

end Bytes

end KeyExport
