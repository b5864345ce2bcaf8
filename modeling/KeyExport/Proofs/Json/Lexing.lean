import KeyExport.Json.Value
import KeyExport.Proofs.Json.Grammar
import Mathlib.Data.List.TakeWhile

/-!
# Tokens of the grammar

A literal and a number of the grammar are one token each: what follows a literal does not matter, what
follows a number may not continue it. The token of a literal stands for its text, however the characters
are written. A reader that runs over all tokens takes them one by one and no notice of blanks.
-/

namespace KeyExport.Json

/-! ## Strings -/

theorem hexValue?_eq {v : Nat} {c : Char} (h : HexDigit v c) : hexValue? c = some v := by
  have all : ∀ v < 16, hexValue? (Nat.digitChar v) = some v ∧
      hexValue? (Nat.digitChar v).toUpper = some v := by decide
  obtain ⟨small, rfl | rfl⟩ := h
  · exact (all v small).1
  · exact (all v small).2

theorem exists_unit?_eq {n : Nat} {ds : List Char} (h : Hex n ds) :
    ∃ a b c d, ds = [a, b, c, d] ∧ unit? a b c d = some n := by
  obtain ⟨first, second, third, fourth⟩ := h
  refine ⟨_, _, _, _, rfl, ?_⟩
  rw [unit?, hexValue?_eq first, hexValue?_eq second, hexValue?_eq third, hexValue?_eq fourth]
  rfl

theorem pieces?_unit {n : Nat} {ds : List Char} (h : Hex n ds) (done : List Piece) (rest : List Char) :
    pieces? done ('\\' :: 'u' :: (ds ++ rest)) = pieces? (.unit n :: done) rest := by
  obtain ⟨a, b, c, d, rfl, value⟩ := exists_unit?_eq h
  rw [List.cons_append, List.cons_append, List.cons_append, List.cons_append, List.nil_append, pieces?,
    value]

theorem pieces?_plain {c : Char} (shows : 0x20 ≤ c.toNat) (unquoted : c ≠ '"') (unescaped : c ≠ '\\')
    (done : List Piece) (rest : List Char) :
    pieces? done (c :: rest) = pieces? (.char c :: done) rest := by
  rw [pieces?]
  · exact if_neg (not_or.mpr ⟨Nat.not_lt.mpr shows, unescaped⟩)
  · exact unquoted
  · exact fun _ _ _ _ _ backslash _ => unescaped backslash
  · exact fun _ _ backslash _ => unescaped backslash

theorem pieces?_short {e c : Char} (listed : (e, c) ∈ shortEscapes) (done : List Piece)
    (rest : List Char) : pieces? done ('\\' :: e :: rest) = pieces? (.char c :: done) rest := by
  have all : ∀ p ∈ shortEscapes, escaped? p.1 = some p.2 ∧ p.1 ≠ 'u' := by decide
  obtain ⟨value, other⟩ := all _ listed
  rw [pieces?, value]
  intro a b c d others unit
  exact absurd unit other

/-! ## What strings stand for -/

theorem halves (c : Char) : isHighHalf c.toNat = false ∧ isLowHalf c.toNat = false := by
  have valid : c.toNat < 0xD800 ∨ 0xDFFF < c.toNat ∧ c.toNat < 0x110000 := c.valid
  simp only [isHighHalf, isLowHalf, Bool.and_eq_false_iff, decide_eq_false_iff_not]
  omega

theorem chars?_unit {n : Nat} (whole : (isHighHalf n || isLowHalf n) = false) (done : List Char)
    (rest : List Piece) : chars? done (.unit n :: rest) = chars? (Char.ofNat n :: done) rest := by
  rw [Bool.or_eq_false_iff] at whole
  rw [chars?.eq_def]
  cases rest with
  | nil => simp [whole, chars?]
  | cons p ps => cases p <;> simp [whole]

theorem chars?_pair {n m : Nat} (high : isHighHalf n = true) (low : isLowHalf m = true)
    (done : List Char) (rest : List Piece) :
    chars? done (.unit n :: .unit m :: rest) =
      chars? (Char.ofNat (0x10000 + (n - 0xD800) * 0x400 + (m - 0xDC00)) :: done) rest := by
  rw [chars?, if_pos high, if_pos low]

/-- Reading a string goes on from a character to the next. -/
structure Reads (c : Char) (ds : List Char) (ps : List Piece) : Prop where
  pieces : ∀ done rest, pieces? done (ds ++ rest) = pieces? (ps.reverse ++ done) rest
  chars : ∀ done rest, chars? done (ps ++ rest) = chars? (c :: done) rest

theorem exists_reads {c : Char} {ds : List Char} (h : Spelling c ds) : ∃ ps, Reads c ds ps := by
  cases h with
  | plain shows unquoted unescaped =>
    exact ⟨[.char c], pieces?_plain shows unquoted unescaped, fun done rest => rfl⟩
  | short listed => exact ⟨[.char c], pieces?_short listed, fun done rest => rfl⟩
  | unit digits =>
    refine ⟨[.unit c.toNat], pieces?_unit digits, ?_⟩
    intro done rest
    have whole : (isHighHalf c.toNat || isLowHalf c.toNat) = false := by simp [halves c]
    have read := chars?_unit whole done rest
    rwa [Char.ofNat_toNat] at read
  | pair beyond high low =>
    refine ⟨[.unit (0xD800 + (c.toNat - 0x10000) / 0x400), .unit (0xDC00 + (c.toNat - 0x10000) % 0x400)],
      ?_, ?_⟩
    · intro done rest
      rw [List.cons_append, List.cons_append, List.append_assoc, pieces?_unit high, List.cons_append,
        List.cons_append, pieces?_unit low]
      rfl
    · intro done rest
      have valid : c.toNat < 0xD800 ∨ 0xDFFF < c.toNat ∧ c.toNat < 0x110000 := c.valid
      have first : isHighHalf (0xD800 + (c.toNat - 0x10000) / 0x400) = true := by
        simp only [isHighHalf, Bool.and_eq_true, decide_eq_true_eq]
        omega
      have second : isLowHalf (0xDC00 + (c.toNat - 0x10000) % 0x400) = true := by
        simp only [isLowHalf, Bool.and_eq_true, decide_eq_true_eq]
        omega
      have joined : 0x10000 + (0xD800 + (c.toNat - 0x10000) / 0x400 - 0xD800) * 0x400 +
          (0xDC00 + (c.toNat - 0x10000) % 0x400 - 0xDC00) = c.toNat := by
        omega
      have read := chars?_pair first second done rest
      rwa [joined, Char.ofNat_toNat] at read

theorem exists_pieces {cs ds : List Char} (h : Spelled cs ds) :
    ∃ ps, (∀ done rest, pieces? done (ds ++ rest) = pieces? (ps.reverse ++ done) rest) ∧
      ∀ done, chars? done ps = some (done.reverse ++ cs) := by
  induction h with
  | nil => exact ⟨[], fun done rest => rfl, fun done => by simp [chars?]⟩
  | @cons c cs ds es first others ih =>
    obtain ⟨ps, reads⟩ := exists_reads first
    obtain ⟨qs, pieces, chars⟩ := ih
    refine ⟨ps ++ qs, ?_, ?_⟩
    · intro done rest
      rw [List.append_assoc, reads.pieces, pieces, List.reverse_append, List.append_assoc]
    · intro done
      rw [reads.chars, chars]
      simp

/-- A literal is one token, and the token stands for the text. -/
theorem exists_token?_literal {s : String} {cs : List Char} (h : Literal s cs) :
    ∃ ps, (∀ rest, token? (cs ++ rest) = some (.string ps, rest)) ∧ text? ps = some s := by
  obtain ⟨spelled⟩ := h
  obtain ⟨ps, pieces, chars⟩ := exists_pieces spelled
  refine ⟨ps, ?_, ?_⟩
  · intro rest
    have read := pieces [] ('"' :: rest)
    rw [pieces?, List.append_nil, List.reverse_reverse] at read
    rw [List.cons_append, List.append_assoc, List.singleton_append, token?, read]
    rfl
  · rw [text?, chars]
    simp

/-! ## Numbers -/

/-- What may follow a number: it does not go on there. -/
def Stops (cs : List Char) : Prop :=
  ∀ c, cs.head? = some c → c.isDigit = false ∧ c ≠ '.' ∧ c ≠ 'e' ∧ c ≠ 'E'

/-- No digit comes next. -/
def NoDigit (cs : List Char) : Prop := ∀ c, cs.head? = some c → c.isDigit = false

theorem Stops.noDigit {cs : List Char} (h : Stops cs) : NoDigit cs := fun c head => (h c head).1

theorem digits?_append {ds rest : List Char} (h : Digits ds) (stop : NoDigit rest) :
    digits? (ds ++ rest) = some (ds, rest) := by
  have none : rest.takeWhile Char.isDigit = [] ∧ rest.dropWhile Char.isDigit = rest := by
    cases rest with
    | nil => exact ⟨rfl, rfl⟩
    | cons c rest => simp [stop c rfl]
  unfold digits?
  rw [List.takeWhile_append_of_pos h.all, List.dropWhile_append_of_pos h.all, none.1, none.2,
    List.append_nil]
  obtain ⟨d, ds, rfl⟩ := List.exists_cons_of_ne_nil h.nonempty
  rfl

theorem whole?_append {ds rest : List Char} (h : Whole ds) (stop : NoDigit rest) :
    whole? (ds ++ rest) = some (ds, rest) := by
  unfold whole?
  rw [digits?_append h.digits stop]
  split
  · next zeros =>
    cases zeros
    rcases h.lead with single | other
    · cases single
    · exact absurd rfl other
  · rfl

theorem exists_fraction?_append {f rest : List Char} (h : Fraction f) (stop : NoDigit rest)
    (pointless : rest.head? ≠ some '.') : ∃ ds, fraction? (f ++ rest) = some (ds, rest) := by
  cases h with
  | none =>
    refine ⟨[], ?_⟩
    rw [List.nil_append, fraction?]
    rintro others rfl
    exact pointless rfl
  | @digits ds behind => exact ⟨ds, digits?_append behind stop⟩

theorem exists_exponent?_append {e rest : List Char} (h : Exponent e) (stop : Stops rest) :
    ∃ x, exponent? (e ++ rest) = some (x, rest) := by
  cases h with
  | none =>
    cases rest with
    | nil => exact ⟨none, rfl⟩
    | cons c rest =>
      obtain ⟨-, -, lower, upper⟩ := stop c rfl
      exact ⟨none, if_neg (not_or.mpr ⟨lower, upper⟩)⟩
  | @digits e sign ds mark signed behind =>
    have read : ∀ negative, exponentDigits? negative (ds ++ rest) = some (some (negative, ds), rest) := by
      intro negative
      rw [exponentDigits?, digits?_append behind stop.noDigit]
      rfl
    unfold exponent?
    simp only [List.cons_append, if_pos mark, List.append_assoc]
    rcases signed with rfl | rfl | rfl
    · refine ⟨some (false, ds), ?_⟩
      have unsigned : ∀ c, ¬c.isDigit → ∀ others, ds ++ rest ≠ c :: others := by
        rintro c other others starts
        obtain ⟨d, ds, rfl⟩ := List.exists_cons_of_ne_nil behind.nonempty
        obtain ⟨rfl, -⟩ := List.cons.inj starts
        exact other (behind.all d List.mem_cons_self)
      rw [List.nil_append]
      split
      · next starts => exact absurd starts (unsigned '-' (by decide) _)
      · next starts => exact absurd starts (unsigned '+' (by decide) _)
      · exact read false
    · exact ⟨some (false, ds), read false⟩
    · exact ⟨some (true, ds), read true⟩

theorem Fraction.noDigit {f rest : List Char} (h : Fraction f) (stop : NoDigit rest) :
    NoDigit (f ++ rest) := by
  cases h with
  | none => exact stop
  | digits =>
    rintro c ⟨⟩
    rfl

theorem Exponent.head? {e rest : List Char} (h : Exponent e) (stop : Stops rest) :
    NoDigit (e ++ rest) ∧ (e ++ rest).head? ≠ some '.' := by
  cases h with
  | none => exact ⟨stop.noDigit, fun point => (stop _ point).2.1 rfl⟩
  | digits mark =>
    rcases mark with rfl | rfl
    · exact ⟨by rintro c ⟨⟩; rfl, by simp⟩
    · exact ⟨by rintro c ⟨⟩; rfl, by simp⟩

theorem exists_numeral?_append (negative : Bool) {w f e rest : List Char} (hw : Whole w) (hf : Fraction f)
    (he : Exponent e) (stop : Stops rest) :
    ∃ n, numeral? negative (w ++ (f ++ (e ++ rest))) = some (n, rest) := by
  obtain ⟨noDigit, pointless⟩ := he.head? stop
  obtain ⟨ds, fraction⟩ := exists_fraction?_append hf noDigit pointless
  obtain ⟨x, exponent⟩ := exists_exponent?_append he stop
  refine ⟨⟨negative, w, ds, x⟩, ?_⟩
  rw [numeral?, whole?_append hw (hf.noDigit noDigit)]
  simp [fraction, exponent]

theorem token?_digit {c : Char} (digit : c.isDigit = true) (cs : List Char) :
    token? (c :: cs) = (numeral? false (c :: cs)).map fun (n, rest) => (.number n, rest) := by
  have other : ∀ d : Char, d.isDigit = false → c ≠ d := by
    rintro d not rfl
    rw [digit] at not
    cases not
  rw [token?] <;> exact fun same => other _ rfl same

/-- A number is one token where it does not go on. -/
theorem exists_token?_number {cs rest : List Char} (h : NumberText cs) (stop : Stops rest) :
    ∃ n, token? (cs ++ rest) = some (.number n, rest) := by
  obtain ⟨signed, hw, hf, he⟩ := h
  rcases signed with rfl | rfl
  · obtain ⟨n, read⟩ := exists_numeral?_append false hw hf he stop
    obtain ⟨d, ds, rfl⟩ := List.exists_cons_of_ne_nil hw.digits.nonempty
    refine ⟨n, ?_⟩
    simp only [List.nil_append, List.append_assoc, List.cons_append] at read ⊢
    rw [token?_digit (hw.digits.all d List.mem_cons_self), read]
    rfl
  · obtain ⟨n, read⟩ := exists_numeral?_append true hw hf he stop
    refine ⟨n, ?_⟩
    simp only [List.append_assoc, List.cons_append, List.nil_append]
    rw [token?, read]
    rfl

/-! ## Runs over tokens -/

section
variable {α ε : Type} {step : α → Token → Except ε α} {bad : ε} {a b : α}

theorem isBlank_eq_true_iff {c : Char} :
    isBlank c = true ↔ c = ' ' ∨ c = '\n' ∨ c = '\t' ∨ c = '\r' := by
  simp only [isBlank, Bool.or_eq_true, decide_eq_true_eq, or_assoc]

theorem scan_congr {cs ds : List Char} (same : cs.dropWhile isBlank = ds.dropWhile isBlank) :
    scan step bad a cs = scan step bad a ds := by
  conv => enter [1]; rw [scan]
  conv => enter [2]; rw [scan]
  rw [same]

/-- Blanks between tokens say nothing. -/
theorem scan_blank {ws : List Char} (blank : Blank ws) (cs : List Char) :
    scan step bad a (ws ++ cs) = scan step bad a cs :=
  scan_congr (List.dropWhile_append_of_pos fun c hc => isBlank_eq_true_iff.mpr (blank c hc))

theorem scan_nil : scan step bad a [] = .ok a := by
  rw [scan]
  rfl

theorem scan_of_blank {ws : List Char} (blank : Blank ws) : scan step bad a ws = .ok a := by
  rw [← List.append_nil ws, scan_blank blank, scan_nil]

/-- No token begins with a blank. -/
theorem dropWhile_of_token? {cs rest : List Char} {t : Token} (read : token? cs = some (t, rest)) :
    cs.dropWhile isBlank = cs := by
  cases cs with
  | nil => rfl
  | cons c cs =>
    refine List.dropWhile_cons_of_neg fun blank => ?_
    rcases isBlank_eq_true_iff.mp blank with rfl | rfl | rfl | rfl <;> cases read

theorem scan_ok {cs rest : List Char} {t : Token} (read : token? cs = some (t, rest))
    (next : step a t = .ok b) : scan step bad a cs = scan step bad b rest := by
  have kept := dropWhile_of_token? read
  rw [scan]
  split
  · next none =>
    rw [← kept, none] at read
    cases read
  · next c others some =>
    rw [← kept, some] at read
    split
    · next other =>
      rw [read] at other
      cases other
    · next t' rest' other =>
      rw [read] at other
      obtain ⟨rfl, rfl⟩ := Prod.mk.inj (Option.some.inj other)
      rw [next]

end

end KeyExport.Json
