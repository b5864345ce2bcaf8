import KeyExport.Json.Token

/-!
# What tokens stand for

A string stands for a text when each escape of 16 bits is a character or a high half followed by its low
half. A number without fraction and exponent is an integer when it fits into 64 bits, signed when it is
negative; a negative zero is none.

Any other number is a floating-point number. Its significand keeps as many of the leading digits as fit
into 64 bits; whole digits that are left out raise the exponent. A number beyond the largest finite one
stands for nothing.
-/

namespace KeyExport.Json

def isHighHalf (n : Nat) : Bool := 0xD800 ≤ n && n < 0xDC00

def isLowHalf (n : Nat) : Bool := 0xDC00 ≤ n && n < 0xE000

/-- The rest of a text, after characters read backwards. -/
def chars? (done : List Char) : List Piece → Option (List Char)
  | [] => some done.reverse
  | .char c :: rest => chars? (c :: done) rest
  | [.unit n] => if isHighHalf n || isLowHalf n then none else some (Char.ofNat n :: done).reverse
  | .unit n :: .unit m :: rest =>
    if isHighHalf n then
      if isLowHalf m then
        chars? (Char.ofNat (0x10000 + (n - 0xD800) * 0x400 + (m - 0xDC00)) :: done) rest
      else none
    else if isLowHalf n then none
    else chars? (Char.ofNat n :: done) (.unit m :: rest)
  | .unit n :: rest =>
    if isHighHalf n || isLowHalf n then none else chars? (Char.ofNat n :: done) rest

def text? (pieces : List Piece) : Option String := (chars? [] pieces).map String.ofList

inductive Number where
  | integer (n : Int)
  | float (f : Float)

/-- The largest unsigned number of 64 bits. -/
def largestSignificand : Nat := 0xFFFFFFFFFFFFFFFF

/-- The least signed number of 64 bits, its sign left out. -/
def leastInteger : Nat := 0x8000000000000000

/-- Append digits to `n` as long as they fit; what that gives and how many digits are left out. -/
def appendDigits (n : Nat) : List Char → Nat × Nat
  | [] => (n, 0)
  | d :: ds =>
    let m := n * 10 + (d.toNat - '0'.toNat)
    if m ≤ largestSignificand then appendDigits m ds else (n, ds.length + 1)

def Numeral.exponentValue (n : Numeral) : Int :=
  match n.exponent with
  | none => 0
  | some (negative, ds) =>
    let e : Int := Nat.ofDigitChars 10 ds 0
    if negative then -e else e

def tenTo (e : Nat) : Float := Float.ofScientific 1 false e

def largestPower : Nat := 308

def scaleDown (f : Float) (e : Nat) : Float :=
  if e ≤ largestPower then f / tenTo e
  else if f == 0 then f
  else scaleDown (f / tenTo largestPower) (e - largestPower)
termination_by e
decreasing_by
  have : 0 < largestPower := by decide
  omega

def scale? (f : Float) : Int → Option Float
  | .ofNat e =>
    if e ≤ largestPower then
      let scaled := f * tenTo e
      if scaled.isInf then none else some scaled
    else if f == 0 then some f
    else none
  | .negSucc e => some (scaleDown f (e + 1))

def Numeral.float? (n : Numeral) : Option Float :=
  let (whole, left) := appendDigits 0 n.whole
  let (significand, unused) := appendDigits whole n.fraction
  let exponent := n.exponentValue + left - (n.fraction.length - unused : Nat)
  (scale? significand.toUInt64.toFloat exponent).map fun f => if n.negative then -f else f

def Numeral.integer? (n : Numeral) : Option Int :=
  match n.fraction, n.exponent, appendDigits 0 n.whole with
  | [], none, (whole, 0) =>
    if ¬n.negative then some whole
    else if 0 < whole ∧ whole ≤ leastInteger then some (-whole)
    else none
  | _, _, _ => none

def Numeral.number? (n : Numeral) : Option Number :=
  match n.integer? with
  | some i => some (.integer i)
  | none => n.float?.map .float

end KeyExport.Json
