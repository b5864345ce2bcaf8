import KeyExport.Text.Bytes

/-!
# Characters of one byte

A character below 128 is one byte, and all bytes of any other character are 128 or more. So such a
character, or a run of them, occurs among the bytes of a text exactly where it occurs in the text:
separators and delimiters can be looked for in the bytes, and a number is told from a delimiter behind it.
-/

namespace KeyExport

def IsAscii (c : Char) : Prop := c.val ≤ 127

instance (c : Char) : Decidable (IsAscii c) := inferInstanceAs (Decidable (c.val ≤ 127))

theorem isAscii_of_all {cs : List Char} (h : (cs.all fun c => decide (IsAscii c)) = true) :
    ∀ c ∈ cs, IsAscii c := by
  intro c mem
  exact of_decide_eq_true (List.all_eq_true.mp h c mem)

/-- The byte of a character below 128. -/
def asciiByte (c : Char) : UInt8 := c.val.toUInt8

theorem utf8EncodeChar_of_isAscii {c : Char} (ascii : IsAscii c) :
    String.utf8EncodeChar c = [asciiByte c] := by
  apply String.utf8EncodeChar_eq_singleton
  exact Char.utf8Size_eq_one_iff.mpr ascii

theorem le_of_mem_utf8EncodeChar {c : Char} (wide : ¬IsAscii c) {x : UInt8}
    (mem : x ∈ String.utf8EncodeChar c) : 128 ≤ x := by
  have large : ¬c.val.toNat ≤ 127 := fun le => wide (UInt32.le_iff_toNat_le.mpr le)
  simp only [String.utf8EncodeChar, large, ↓reduceIte] at mem
  rw [UInt8.le_iff_toNat_le]
  split at mem
  · simp only [List.mem_cons, List.not_mem_nil, or_false] at mem
    rcases mem with rfl | rfl <;> simp <;> omega
  · split at mem
    · simp only [List.mem_cons, List.not_mem_nil, or_false] at mem
      rcases mem with rfl | rfl | rfl <;> simp <;> omega
    · simp only [List.mem_cons, List.not_mem_nil, or_false] at mem
      rcases mem with rfl | rfl | rfl | rfl <;> simp <;> omega

theorem toNat_asciiByte {c : Char} (ascii : IsAscii c) : (asciiByte c).toNat = c.val.toNat := by
  have small : c.val.toNat ≤ 127 := UInt32.le_iff_toNat_le.mp ascii
  simp only [asciiByte, UInt32.toNat_toUInt8]
  omega

theorem asciiByte_lt {c : Char} (ascii : IsAscii c) : asciiByte c < 128 := by
  have small : c.val.toNat ≤ 127 := UInt32.le_iff_toNat_le.mp ascii
  rw [UInt8.lt_iff_toNat_lt, toNat_asciiByte ascii]
  exact Nat.lt_succ_of_le small

theorem asciiByte_injective {c d : Char} (hc : IsAscii c) (hd : IsAscii d)
    (same : asciiByte c = asciiByte d) : c = d := by
  apply Char.ext
  apply UInt32.toNat_inj.mp
  rw [← toNat_asciiByte hc, ← toNat_asciiByte hd, same]

/-- A wide character holds no byte of a small one. -/
theorem asciiByte_notMem_utf8EncodeChar {c d : Char} (ascii : IsAscii c) (wide : ¬IsAscii d) :
    asciiByte c ∉ String.utf8EncodeChar d := by
  intro mem
  have large := le_of_mem_utf8EncodeChar wide mem
  exact absurd (asciiByte_lt ascii) (UInt8.not_lt.mpr large)

namespace Bytes

theorem ofChars_cons_of_isAscii {c : Char} (ascii : IsAscii c) (cs : List Char) :
    ofChars (c :: cs) = asciiByte c :: ofChars cs := by
  rw [ofChars_cons, utf8EncodeChar_of_isAscii ascii, List.singleton_append]

theorem ofChars_replicate_of_isAscii {c : Char} (ascii : IsAscii c) (n : Nat) :
    ofChars (List.replicate n c) = List.replicate n (asciiByte c) := by
  induction n with
  | zero => rfl
  | succ n ih => rw [List.replicate_succ, List.replicate_succ, ofChars_cons_of_isAscii ascii, ih]

/-- A text ends in a small character where its bytes end in the byte of that character. -/
theorem getLast?_ofChars_eq_some_iff {c : Char} (ascii : IsAscii c) {cs : List Char} :
    (ofChars cs).getLast? = some (asciiByte c) ↔ cs.getLast? = some c := by
  rcases List.eq_nil_or_concat cs with rfl | ⟨front, d, rfl⟩
  · simp
  · rw [List.concat_eq_append]
    have last : (ofChars (front ++ [d])).getLast? = (String.utf8EncodeChar d).getLast? := by
      rw [ofChars_append, ofChars_cons, ofChars_nil, List.append_nil, List.getLast?_append]
      exact Option.or_of_isSome (List.getLast?_isSome.mpr String.utf8EncodeChar_ne_nil)
    rw [last, List.getLast?_concat, Option.some.injEq]
    by_cases small : IsAscii d
    · rw [utf8EncodeChar_of_isAscii small, List.getLast?_singleton, Option.some.injEq]
      exact ⟨asciiByte_injective small ascii, congrArg asciiByte⟩
    · constructor
      · intro inside
        exact absurd (List.mem_of_getLast? inside) (asciiByte_notMem_utf8EncodeChar ascii small)
      · rintro rfl
        exact absurd ascii small

theorem asciiByte_mem_ofChars_iff {c : Char} (ascii : IsAscii c) {cs : List Char} :
    asciiByte c ∈ ofChars cs ↔ c ∈ cs := by
  induction cs with
  | nil => simp
  | cons d ds ih =>
    by_cases small : IsAscii d
    · rw [ofChars_cons_of_isAscii small, List.mem_cons, List.mem_cons, ih]
      constructor
      · rintro (same | later)
        · exact .inl (asciiByte_injective ascii small same)
        · exact .inr later
      · rintro (rfl | later)
        · exact .inl rfl
        · exact .inr later
    · rw [ofChars_cons, List.mem_append, ih, List.mem_cons]
      constructor
      · rintro (inside | later)
        · exact absurd inside (asciiByte_notMem_utf8EncodeChar ascii small)
        · exact .inr later
      · rintro (rfl | later)
        · exact absurd ascii small
        · exact .inr later

/-- Dropping a small character from the front of a text drops its byte from the front of the bytes. -/
theorem dropWhile_ofChars {c : Char} (ascii : IsAscii c) (cs : List Char) :
    (ofChars cs).dropWhile (· == asciiByte c) = ofChars (cs.dropWhile (· == c)) := by
  induction cs with
  | nil => rfl
  | cons d ds ih =>
    by_cases same : d = c
    · subst same
      rw [ofChars_cons_of_isAscii ascii]
      simpa using ih
    · have stop : (d == c) = false := by simpa using same
      rw [List.dropWhile_cons_of_neg (by simp [stop])]
      obtain ⟨x, xs, e⟩ := List.exists_cons_of_ne_nil (String.utf8EncodeChar_ne_nil (c := d))
      have other : x ≠ asciiByte c := by
        rintro rfl
        by_cases small : IsAscii d
        · rw [utf8EncodeChar_of_isAscii small] at e
          exact same (asciiByte_injective small ascii (List.cons.inj e).1)
        · exact asciiByte_notMem_utf8EncodeChar ascii small (by rw [e]; exact List.mem_cons_self)
      rw [ofChars_cons, e, List.cons_append, List.dropWhile_cons_of_neg (by simpa using other)]

theorem prefix_of_prefix_ofChars {p cs : List Char} (ascii : ∀ c ∈ p, IsAscii c)
    (front : ofChars p <+: ofChars cs) : p <+: cs := by
  induction p generalizing cs with
  | nil => exact List.nil_prefix
  | cons c p ih =>
    have small := ascii c List.mem_cons_self
    rw [ofChars_cons_of_isAscii small] at front
    cases cs with
    | nil => simp at front
    | cons d ds =>
      by_cases narrow : IsAscii d
      · rw [ofChars_cons_of_isAscii narrow, List.cons_prefix_cons] at front
        obtain ⟨same, rest⟩ := front
        rw [List.cons_prefix_cons]
        exact ⟨asciiByte_injective small narrow same,
          ih (fun c mem => ascii c (List.mem_cons_of_mem _ mem)) rest⟩
      · obtain ⟨x, xs, e⟩ := List.exists_cons_of_ne_nil (String.utf8EncodeChar_ne_nil (c := d))
        rw [ofChars_cons, e, List.cons_append, List.cons_prefix_cons] at front
        refine absurd ?_ (asciiByte_notMem_utf8EncodeChar small narrow)
        rw [e, front.1]
        exact List.mem_cons_self

/-- What begins with a byte that `front` lacks does not begin inside `front`. -/
theorem infix_append_of_notMem {x : UInt8} {p front rest : Bytes} (absent : x ∉ front)
    (inside : x :: p <:+: front ++ rest) : x :: p <:+: rest := by
  induction front with
  | nil => exact inside
  | cons y ys ih =>
    rw [List.cons_append, List.infix_cons_iff] at inside
    rcases inside with here | later
    · exact absurd (List.cons_prefix_cons.mp here).1 (by rintro rfl; exact absent List.mem_cons_self)
    · exact ih (fun mem => absent (List.mem_cons_of_mem _ mem)) later

/-- A run of small characters occurs in a text where its bytes occur in the bytes of the text. -/
theorem infix_of_infix_ofChars {p cs : List Char} (ascii : ∀ c ∈ p, IsAscii c)
    (inside : ofChars p <:+: ofChars cs) : p <:+: cs := by
  cases p with
  | nil => exact List.nil_infix
  | cons c p =>
    have small := ascii c List.mem_cons_self
    induction cs with
    | nil =>
      rw [ofChars_cons_of_isAscii small] at inside
      simp at inside
    | cons d ds ih =>
      by_cases narrow : IsAscii d
      · rw [ofChars_cons_of_isAscii narrow, List.infix_cons_iff] at inside
        rcases inside with here | later
        · rw [← ofChars_cons_of_isAscii narrow] at here
          exact (prefix_of_prefix_ofChars ascii here).isInfix
        · exact List.infix_cons (ih later)
      · rw [ofChars_cons_of_isAscii small, ofChars_cons] at inside
        have later := infix_append_of_notMem (asciiByte_notMem_utf8EncodeChar small narrow) inside
        rw [← ofChars_cons_of_isAscii small] at later
        exact List.infix_cons (ih later)

/-! ## Up to a byte -/

/-- Two lists are told apart up to the first `x`. -/
theorem append_stop_cancel {x : UInt8} {a b r s : Bytes} (ha : x ∉ a) (hb : x ∉ b)
    (same : a ++ x :: r = b ++ x :: s) : a = b ∧ r = s := by
  induction a generalizing b with
  | nil =>
    cases b with
    | nil => exact ⟨rfl, (List.cons.inj same).2⟩
    | cons y b =>
      obtain rfl := (List.cons.inj same).1
      exact absurd List.mem_cons_self hb
  | cons z a ih =>
    cases b with
    | nil =>
      obtain rfl := (List.cons.inj same).1
      exact absurd List.mem_cons_self ha
    | cons y b =>
      obtain ⟨rfl, rest⟩ := List.cons.inj same
      obtain ⟨rfl, rfl⟩ :=
        ih (fun mem => ha (List.mem_cons_of_mem _ mem)) (fun mem => hb (List.mem_cons_of_mem _ mem)) rest
      exact ⟨rfl, rfl⟩

theorem notMem_ofNat {c : Char} (ascii : IsAscii c) (other : c.isDigit = false) (n : Nat) :
    asciiByte c ∉ ofNat n := by
  rw [ofNat, Text.numeral, ofString_ofList, asciiByte_mem_ofChars_iff ascii]
  intro mem
  rw [Nat.isDigit_of_mem_toDigits (by decide) (by decide) mem] at other
  cases other

theorem ofNat_injective {m n : Nat} (same : ofNat m = ofNat n) : m = n :=
  Text.numeral_injective (ofString_injective same)

/-- A number is told from what follows it, if that is no digit. -/
theorem ofNat_append_cancel {c : Char} (ascii : IsAscii c) (other : c.isDigit = false) {m n : Nat}
    {r s : Bytes} (same : ofNat m ++ asciiByte c :: r = ofNat n ++ asciiByte c :: s) :
    m = n ∧ r = s := by
  obtain ⟨numbers, rest⟩ :=
    append_stop_cancel (notMem_ofNat ascii other m) (notMem_ofNat ascii other n) same
  exact ⟨ofNat_injective numbers, rest⟩

end Bytes

end KeyExport
