import HardwareLinker.Decimal.Numeral

/-!
Decimal numbers digit by digit, for readers that do more with a number than to take its value.
-/

namespace HardwareLinker.Decimal

/-- A number as it is written: whole digits, the digits of a fraction, and a power of ten. -/
structure Written where
  negative : Bool := false
  whole : List Char
  fraction : List Char := []
  exponent : Int := 0
deriving DecidableEq, Repr

namespace Written

def ofNat (n : Nat) : Written := { whole := Nat.toDigits 10 n }

def numeral (d : Written) : Numeral :=
  .finite d.negative (Numeral.natOfDigits (d.whole ++ d.fraction)) (d.exponent - d.fraction.length)

def text (d : Written) : String :=
  (if d.negative then "-" else "") ++ String.ofList d.whole
    ++ (if d.fraction.isEmpty then "" else "." ++ String.ofList d.fraction)
    ++ (if d.exponent = 0 then "" else "e" ++ toString d.exponent)

end Written
end HardwareLinker.Decimal
