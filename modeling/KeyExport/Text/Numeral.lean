/-!
# Decimal numerals
-/

namespace KeyExport.Text

def numeral (n : Nat) : String := String.ofList (Nat.toDigits 10 n)

def signed (n : Int) : String := (if n < 0 then "-" else "") ++ numeral n.natAbs

theorem numeral_injective {m n : Nat} (h : numeral m = numeral n) : m = n := by
  rw [← Nat.ofDigitChars_ten_toDigits (n := m), ← Nat.ofDigitChars_ten_toDigits (n := n),
    String.ofList_injective h]

end KeyExport.Text
