import HardwareLinker.Binary64

/-!
Number texts as they appear in constraint files, solver output and configuration: an optional
sign, then either a word (`inf`, `infinity`, `nan`, in any case) or decimal digits with an optional
fraction and an optional exponent. Digits are ASCII; blanks and separators are refused.
-/

namespace HardwareLinker

/-- The value that a number text denotes, before any rounding. -/
inductive Numeral where
  | finite (negative : Bool) (digits : Nat) (exponent : Int)
  | infinite (negative : Bool)
  | notANumber (negative : Bool)
deriving DecidableEq, Repr

namespace Numeral

def digitValue (c : Char) : Nat := c.toNat - '0'.toNat

/-- The value of a digit string, most significant digit first. -/
def natOfDigits (cs : List Char) : Nat :=
  cs.foldl (fun n c => 10 * n + digitValue c) 0

def takeDigits (cs : List Char) : List Char × List Char := cs.span Char.isDigit

/-- An optional sign: whether it is a minus, and what follows it. -/
def takeSign : List Char → Bool × List Char
  | '-' :: rest => (true, rest)
  | '+' :: rest => (false, rest)
  | rest => (false, rest)

/-- An exponent part; nothing at all stands for zero. -/
def readExponent : List Char → Option Int
  | [] => some 0
  | c :: rest =>
    if c == 'e' || c == 'E' then
      let (negative, digits) := takeSign rest
      if digits.isEmpty || !digits.all Char.isDigit then none
      else
        let n : Int := natOfDigits digits
        some (if negative then -n else n)
    else none

/-- A fraction part after the whole digits: its digits and what follows them. -/
def takeFraction : List Char → List Char × List Char
  | '.' :: rest => takeDigits rest
  | rest => ([], rest)

def readUnsigned (negative : Bool) (cs : List Char) : Option Numeral :=
  let (whole, rest) := takeDigits cs
  let (fraction, rest) := takeFraction rest
  if whole.isEmpty && fraction.isEmpty then none
  else
    (readExponent rest).map fun e =>
      .finite negative (natOfDigits (whole ++ fraction)) (e - fraction.length)

def ofList? (cs : List Char) : Option Numeral :=
  let (negative, rest) := takeSign cs
  let word := rest.map Char.toLower
  if word == "inf".toList || word == "infinity".toList then some (.infinite negative)
  else if word == "nan".toList then some (.notANumber negative)
  else readUnsigned negative rest

def ofString? (s : String) : Option Numeral := ofList? s.toList

/-- Beyond these powers of ten every value is infinite or zero. -/
def exponentLimit : Int := 400

/-- The nearest binary64 value. -/
def toBinary64 (n : Numeral) : Binary64 :=
  let (negative, magnitude) : Bool × Binary64 := match n with
    | .notANumber negative => (negative, .notANumber)
    | .infinite negative => (negative, .infinity)
    | .finite negative digits exponent =>
      let size : Int := (toString digits).length + exponent
      (negative,
        if digits = 0 || size < -exponentLimit then 0
        else if size > exponentLimit then .infinity
        else if 0 ≤ exponent then
          OfScientific.ofScientific (digits * Nat.pow 10 exponent.toNat) false 0
        else OfScientific.ofScientific digits true (-exponent).toNat)
  if negative then -magnitude else magnitude

/-- The exact value, where there is one. -/
def toRat? : Numeral → Option Rat
  | .finite negative digits exponent =>
    let magnitude : Rat :=
      mkRat (digits * Nat.pow 10 exponent.toNat : Nat) (Nat.pow 10 (-exponent).toNat)
    some (if negative then -magnitude else magnitude)
  | _ => none

end Numeral

/-- An unsigned numeral of at most `limit`: ASCII digits after an optional plus. -/
def natBelow? (limit : Nat) (s : String) : Option Nat :=
  let digits := match s.toList with
    | '+' :: rest => rest
    | rest => rest
  if digits.isEmpty || !digits.all Char.isDigit then none
  else
    let n := Numeral.natOfDigits digits
    if n ≤ limit then some n else none

end HardwareLinker
