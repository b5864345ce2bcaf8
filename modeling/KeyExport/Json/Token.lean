import KeyExport.Text.Front

/-!
# Tokens of JSON text

`token?` reads one token where the text begins with one, and `scan` runs a reader over all tokens, left to
right. A number keeps its digits and a string its pieces, because a value that is passed over need not
have a meaning: its number may be too large, its escapes may be halves of a character.
-/

namespace KeyExport.Json

/-- The parts of a number; an absent fraction is empty. -/
structure Numeral where
  negative : Bool
  whole : List Char
  fraction : List Char
  exponent : Option (Bool × List Char)
deriving DecidableEq, Repr

/-- A character as it stands, or a unit of 16 bits from an escape with four digits. -/
inductive Piece where
  | char (c : Char)
  | unit (n : Nat)
deriving DecidableEq, Repr

inductive Token where
  | openObject
  | closeObject
  | openArray
  | closeArray
  | comma
  | colon
  | null
  | bool (b : Bool)
  | number (n : Numeral)
  | string (pieces : List Piece)
deriving DecidableEq, Repr

def isBlank (c : Char) : Bool := c = ' ' || c = '\n' || c = '\t' || c = '\r'

def hexValue? (c : Char) : Option Nat :=
  if '0' ≤ c ∧ c ≤ '9' then some (c.toNat - '0'.toNat)
  else if 'a' ≤ c ∧ c ≤ 'f' then some (c.toNat - 'a'.toNat + 10)
  else if 'A' ≤ c ∧ c ≤ 'F' then some (c.toNat - 'A'.toNat + 10)
  else none

def unit? (a b c d : Char) : Option Nat := do
  let a ← hexValue? a
  let b ← hexValue? b
  let c ← hexValue? c
  let d ← hexValue? d
  return ((a * 16 + b) * 16 + c) * 16 + d

/-- What a backslash and one character stand for. -/
def escaped? (c : Char) : Option Char :=
  if c = '"' ∨ c = '\\' ∨ c = '/' then some c
  else if c = 'b' then some '\x08'
  else if c = 'f' then some '\x0C'
  else if c = 'n' then some '\n'
  else if c = 'r' then some '\r'
  else if c = 't' then some '\t'
  else none

/-- The rest of a string up to its closing quote, after pieces read backwards, and what follows it. -/
def pieces? (done : List Piece) : List Char → Option (List Piece × List Char)
  | [] => none
  | '"' :: rest => some (done.reverse, rest)
  | '\\' :: 'u' :: a :: b :: c :: d :: rest =>
    match unit? a b c d with
    | some n => pieces? (.unit n :: done) rest
    | none => none
  | '\\' :: c :: rest =>
    match escaped? c with
    | some c => pieces? (.char c :: done) rest
    | none => none
  | c :: rest => if c.toNat < 0x20 ∨ c = '\\' then none else pieces? (.char c :: done) rest

/-- At least one digit. -/
def digits? (cs : List Char) : Option (List Char × List Char) :=
  match cs.takeWhile Char.isDigit with
  | [] => none
  | ds => some (ds, cs.dropWhile Char.isDigit)

/-- A zero stands alone. -/
def whole? (cs : List Char) : Option (List Char × List Char) :=
  match digits? cs with
  | some ('0' :: _ :: _, _) => none
  | result => result

def fraction? : List Char → Option (List Char × List Char)
  | '.' :: rest => digits? rest
  | cs => some ([], cs)

def exponentDigits? (negative : Bool) (cs : List Char) : Option (Option (Bool × List Char) × List Char) :=
  (digits? cs).map fun (ds, rest) => (some (negative, ds), rest)

def exponent? : List Char → Option (Option (Bool × List Char) × List Char)
  | [] => some (none, [])
  | e :: rest =>
    if e = 'e' ∨ e = 'E' then
      match rest with
      | '-' :: rest => exponentDigits? true rest
      | '+' :: rest => exponentDigits? false rest
      | rest => exponentDigits? false rest
    else some (none, e :: rest)

def numeral? (negative : Bool) (cs : List Char) : Option (Numeral × List Char) := do
  let (whole, cs) ← whole? cs
  let (fraction, cs) ← fraction? cs
  let (exponent, cs) ← exponent? cs
  return (⟨negative, whole, fraction, exponent⟩, cs)

/-- The rest of a word whose first character has been read. -/
def word? (rest : List Char) (t : Token) (cs : List Char) : Option (Token × List Char) :=
  (Text.dropFront? rest cs).map (t, ·)

/-- The token at the front; no blank precedes it. -/
def token? : List Char → Option (Token × List Char)
  | [] => none
  | c :: cs =>
    match c with
    | '\x7b' => some (.openObject, cs)
    | '\x7d' => some (.closeObject, cs)
    | '[' => some (.openArray, cs)
    | ']' => some (.closeArray, cs)
    | ',' => some (.comma, cs)
    | ':' => some (.colon, cs)
    | '"' => (pieces? [] cs).map fun (pieces, rest) => (.string pieces, rest)
    | 'n' => word? ['u', 'l', 'l'] .null cs
    | 't' => word? ['r', 'u', 'e'] (.bool true) cs
    | 'f' => word? ['a', 'l', 's', 'e'] (.bool false) cs
    | '-' => (numeral? true cs).map fun (n, rest) => (.number n, rest)
    | c => (numeral? false (c :: cs)).map fun (n, rest) => (.number n, rest)

theorem pieces?_length_lt {done : List Piece} {cs : List Char} {r : List Piece × List Char}
    (h : pieces? done cs = some r) : r.2.length < cs.length := by
  fun_induction pieces? done cs <;> grind

theorem digits?_length_lt {cs : List Char} {r : List Char × List Char} (h : digits? cs = some r) :
    r.2.length < cs.length := by
  have split := congrArg List.length (List.takeWhile_append_dropWhile (p := Char.isDigit) (l := cs))
  unfold digits? at h
  cases e : cs.takeWhile Char.isDigit <;> grind

theorem whole?_length_lt {cs : List Char} {r : List Char × List Char} (h : whole? cs = some r) :
    r.2.length < cs.length := by
  unfold whole? at h
  split at h
  · simp at h
  · exact digits?_length_lt h

theorem fraction?_length_le {cs : List Char} {r : List Char × List Char} (h : fraction? cs = some r) :
    r.2.length ≤ cs.length := by
  unfold fraction? at h
  split at h
  · have := digits?_length_lt h
    simp only [List.length_cons]
    omega
  · simp_all [← Option.some.inj h]

theorem exponent?_length_le {cs : List Char} {r : Option (Bool × List Char) × List Char}
    (h : exponent? cs = some r) : r.2.length ≤ cs.length := by
  have shorter {b : Bool} {ds : List Char} (h : exponentDigits? b ds = some r) :
      r.2.length < ds.length := by
    obtain ⟨d, hd, rfl⟩ := Option.map_eq_some_iff.mp h
    exact digits?_length_lt hd
  unfold exponent? at h
  grind

theorem numeral?_length_lt {negative : Bool} {cs : List Char} {r : Numeral × List Char}
    (h : numeral? negative cs = some r) : r.2.length < cs.length := by
  simp only [numeral?, Option.bind_eq_bind, Option.bind_eq_some_iff, Option.pure_def,
    Option.some.injEq] at h
  obtain ⟨w, hw, f, hf, e, he, rfl⟩ := h
  have := whole?_length_lt hw
  have := fraction?_length_le hf
  have := exponent?_length_le he
  simp only
  omega

theorem token?_length_lt {cs : List Char} {r : Token × List Char} (h : token? cs = some r) :
    r.2.length < cs.length := by
  have words {w ds : List Char} {t : Token} (h : word? w t ds = some r) :
      r.2.length < ds.length + 1 := by
    obtain ⟨tail, ht, rfl⟩ := Option.map_eq_some_iff.mp h
    rw [Text.dropFront?_eq_some_iff] at ht
    simp only [ht, List.length_append]
    omega
  have numerals {n : Bool} {ds : List Char}
      (h : (numeral? n ds).map (fun (n, rest) => (Token.number n, rest)) = some r) :
      r.2.length < ds.length := by
    obtain ⟨p, hp, rfl⟩ := Option.map_eq_some_iff.mp h
    exact numeral?_length_lt hp
  have strings {ds : List Char}
      (h : (pieces? [] ds).map (fun (p, rest) => (Token.string p, rest)) = some r) :
      r.2.length < ds.length := by
    obtain ⟨p, hp, rfl⟩ := Option.map_eq_some_iff.mp h
    exact pieces?_length_lt hp
  unfold token? at h
  grind

/-- Run a reader over the tokens of a text. It stops at the reader's error, or with `bad` where no token
can be read. -/
def scan {α ε : Type} (step : α → Token → Except ε α) (bad : ε) (a : α) (cs : List Char) :
    Except ε α :=
  match _blanks : cs.dropWhile isBlank with
  | [] => .ok a
  | c :: rest =>
    match _token : token? (c :: rest) with
    | none => .error bad
    | some (t, rest) =>
      match step a t with
      | .error e => .error e
      | .ok a => scan step bad a rest
termination_by cs.length
decreasing_by
  have shorter := token?_length_lt _token
  have fewer := (List.dropWhile_sublist (p := isBlank) (l := cs)).length_le
  rw [_blanks] at fewer
  exact Nat.lt_of_lt_of_le shorter fewer

end KeyExport.Json
