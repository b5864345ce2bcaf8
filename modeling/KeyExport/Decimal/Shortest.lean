/-!
# Shortest decimals

A floating-point number `m · 2 ^ q` is written with the fewest digits that read back as the same number.
The decimal grids are tried from the coarsest on: the first that has a point in the interval of numbers
which round to `m · 2 ^ q` gives the digits. Of two such points the nearer one is taken, of two equally
near ones the even.

The ends of the interval belong to it when `m` is even. Below a power of two the numbers lie closer, so
the lower end is half as far away.
-/

namespace KeyExport.Decimal

/-- The number `m · 2 ^ q`; `narrow` when the next number below is half as far as the one above. -/
structure Binary where
  m : Nat
  q : Int
  narrow : Bool
deriving DecidableEq, Repr

/-- The number `digits · 10 ^ exponent`. -/
structure Point where
  digits : Nat
  exponent : Int
deriving DecidableEq, Repr

/-- `base ^ e` as numerator and denominator. -/
def power (base : Nat) (e : Int) : Nat × Nat := (base.pow e.toNat, base.pow (-e).toNat)

/-- The point of the grid `10 ^ e` that is written for `b`, if one reads back. In units of a fourth of
`2 ^ q`, and brought to a common denominator, the number is `4 * m` and a step of the grid is `step`. -/
def Binary.onGrid? (b : Binary) (e : Int) : Option Point :=
  let (binary, binaryDen) := power 2 (b.q - 2)
  let (decimal, decimalDen) := power 10 e
  let scale := binary * decimalDen
  let step := decimal * binaryDen
  let value := 4 * b.m * scale
  let low := (4 * b.m - if b.narrow then 1 else 2) * scale
  let high := (4 * b.m + 2) * scale
  let readsBack (d : Nat) : Bool :=
    if b.m % 2 = 0 then low ≤ d * step && d * step ≤ high else low < d * step && d * step < high
  let below := value / step
  let above := below + 1
  let nearer :=
    if value - below * step < above * step - value then below
    else if above * step - value < value - below * step then above
    else if below % 2 = 0 then below
    else above
  if readsBack below && readsBack above then some ⟨nearer, e⟩
  else if readsBack below then some ⟨below, e⟩
  else if readsBack above then some ⟨above, e⟩
  else none

/-- The grids on which numbers of 64 bits lie, from the coarsest on. -/
def grids : List Int := (List.range 640).map fun (i : Nat) => (310 : Int) - i

def Binary.shortest (b : Binary) : Point := (grids.findSome? b.onGrid?).getD ⟨0, 0⟩

/-- The parts of a finite number of 64 bits, its sign left out. Below the sign stand eleven bits of
exponent and 52 of fraction; a leading bit is implied unless the exponent is zero. -/
def Binary.ofBits (bits : UInt64) : Binary :=
  let leading : Nat := 1 <<< 52
  let fraction := bits.toNat % leading
  let exponent := (bits.toNat >>> 52) % 2048
  if exponent = 0 then ⟨fraction, -1074, false⟩
  else ⟨leading + fraction, (exponent : Int) - 1075, fraction = 0 && exponent ≠ 1⟩

def zeros (n : Nat) : List Char := List.replicate n '0'

/-- Digits without exponent where the point falls not far from them: up to sixteen digits before it, up
to four zeros behind it. A whole number keeps one zero behind the point. -/
def Point.layout (p : Point) : List Char :=
  let digits := Nat.toDigits 10 p.digits
  let point := digits.length + p.exponent
  if 0 ≤ p.exponent ∧ point ≤ 16 then digits ++ zeros p.exponent.toNat ++ ['.', '0']
  else if 0 < point ∧ point ≤ 16 then digits.take point.toNat ++ '.' :: digits.drop point.toNat
  else if -5 < point ∧ point ≤ 0 then '0' :: '.' :: zeros (-point).toNat ++ digits
  else
    let mantissa :=
      match digits with
      | first :: rest => if rest = [] then [first] else first :: '.' :: rest
      | [] => []
    let exponent := point - 1
    mantissa ++ 'e' :: (if exponent < 0 then '-' else '+') :: Nat.toDigits 10 exponent.natAbs

/-- The text of a finite number. -/
def text (f : Float) : String :=
  let bits := f.toBits
  let b := Binary.ofBits bits
  let sign := if bits.toNat >>> 63 = 1 then ['-'] else []
  String.ofList (sign ++ if b.m = 0 then ['0', '.', '0'] else b.shortest.layout)

end KeyExport.Decimal
