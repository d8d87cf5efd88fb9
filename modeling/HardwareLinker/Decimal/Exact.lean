import HardwareLinker.Decimal.Shortest

/-!
Binary64 numbers as the rationals that they are, and the binary64 number next to a rational.
-/

namespace HardwareLinker.Decimal

/-- The value of a finite number. -/
def toRat? (x : Binary64) : Option Rat :=
  if x.isFinite then
    let d := Dyadic.ofBits x.magnitude
    let magnitude : Rat :=
      mkRat (d.mantissa * numeratorOf 2 d.exponent : Nat) (denominatorOf 2 d.exponent)
    some (if x.isNegative then -magnitude else magnitude)
  else none

/-- The quotient is taken to some sixty bits; a last bit that stands for the remainder keeps the
rounding right. -/
def ofRat (q : Rat) : Binary64 :=
  let num := q.num.natAbs
  let shift : Int := 62 + (q.den.log2 : Int) - num.log2
  let top := num * numeratorOf 2 shift
  let bottom := q.den * denominatorOf 2 shift
  let sticky := if top % bottom = 0 then 0 else 1
  let magnitude :=
    Binary64.ofFloat ((Float.ofNat (2 * (top / bottom) + sticky)).scaleB (-(shift + 1)))
  if num = 0 then 0 else if q.num < 0 then -magnitude else magnitude

end HardwareLinker.Decimal
