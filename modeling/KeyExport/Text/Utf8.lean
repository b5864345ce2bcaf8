import KeyExport.Text.Bytes

/-!
# Reading UTF-8

`decode?` reads whole texts only. `lossy` reads any bytes: what is no character becomes U+FFFD, one for
each longest run of bytes that begins some character, or for a single byte that begins none.
-/

namespace KeyExport.Utf8

def decode? (b : Bytes) : Option String := String.fromUTF8? b.toByteArray

/-- The character at the front, when it is there in full. -/
def first? (b : Bytes) : Option Char := (b.take 4).toByteArray.utf8DecodeChar? 0

/-- The least and the greatest byte that may follow the first byte of a character of three or four. -/
def followers (lead : UInt8) : Option (UInt8 × UInt8) :=
  if lead = 0xE0 then some (0xA0, 0xBF)
  else if lead = 0xED then some (0x80, 0x9F)
  else if lead = 0xF0 then some (0x90, 0xBF)
  else if lead = 0xF4 then some (0x80, 0x8F)
  else if 0xE1 ≤ lead ∧ lead ≤ 0xF3 then some (0x80, 0xBF)
  else none

/-- How much of the front one replacement stands for, where no character is there in full. -/
def brokenLength : Bytes → Nat
  | a :: b :: rest =>
    match followers a with
    | none => 1
    | some (lo, hi) =>
      if lo ≤ b ∧ b ≤ hi then
        match rest with
        | c :: _ => if 0xF0 ≤ a ∧ 0x80 ≤ c ∧ c ≤ 0xBF then 3 else 2
        | [] => 2
      else 1
  | _ => 1

theorem brokenLength_pos (b : Bytes) : 0 < brokenLength b := by
  unfold brokenLength
  repeat' split
  all_goals decide

def replacement : Char := '\uFFFD'

/-- Read `b` to its end, after what has been read already. -/
def lossyAfter (done : String) (b : Bytes) : String :=
  if b = [] then done
  else
    match first? b with
    | some c => lossyAfter (done.push c) (b.drop c.utf8Size)
    | none => lossyAfter (done.push replacement) (b.drop (brokenLength b))
termination_by b.length
decreasing_by
  · have := c.utf8Size_pos
    have := List.length_pos_iff.mpr ‹¬b = []›
    simp only [List.length_drop]
    omega
  · have := brokenLength_pos b
    have := List.length_pos_iff.mpr ‹¬b = []›
    simp only [List.length_drop]
    omega

def lossy (b : Bytes) : String := lossyAfter "" b

theorem first?_utf8EncodeChar_append (c : Char) (b : Bytes) :
    first? (String.utf8EncodeChar c ++ b) = some c := by
  have size : (String.utf8EncodeChar c).length ≤ 4 := by
    simpa using c.utf8Size_le_four
  rw [first?, List.take_append, List.take_of_length_le size, List.toByteArray_append]
  exact ByteArray.utf8DecodeChar?_utf8EncodeChar_append

theorem lossyAfter_ofChars (done : String) (cs : List Char) :
    lossyAfter done (Bytes.ofChars cs) = done ++ String.ofList cs := by
  induction cs generalizing done with
  | nil => simp [lossyAfter]
  | cons c cs ih =>
    rw [lossyAfter, if_neg (by simp), Bytes.ofChars_cons, first?_utf8EncodeChar_append]
    simp only [← String.length_utf8EncodeChar, List.drop_left]
    rw [ih, ← String.append_singleton, String.append_assoc]
    simp

/-- A text in full is read back as it is. -/
theorem lossy_ofString (s : String) : lossy (Bytes.ofString s) = s := by
  rw [lossy, Bytes.ofString, lossyAfter_ofChars]
  simp

end KeyExport.Utf8
