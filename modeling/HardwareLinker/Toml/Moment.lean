import HardwareLinker.Text.Lines
import HardwareLinker.Toml.Basic

/-!
Dates and times of a TOML text. Each reader answers what is left behind a well-formed date or time;
the day has to be one of its month, and a second may be a leap second.
-/

namespace HardwareLinker.Toml

/-- A number of exactly so many digits. -/
def digitGroup? (width : Nat) (cs : List Char) : Option (Nat × List Char) :=
  let digits := cs.take width
  if digits.length = width ∧ digits.all Char.isDigit then
    some (Numeral.natOfDigits digits, cs.drop width)
  else none

/-- A number of two digits between two bounds. -/
def twoDigits? (low high : Nat) (cs : List Char) : Option (Nat × List Char) := do
  let (n, rest) ← digitGroup? 2 cs
  if low ≤ n ∧ n ≤ high then return (n, rest) else none

def isLeapYear (year : Nat) : Bool := year % 4 = 0 && (year % 100 ≠ 0 || year % 400 = 0)

def daysOfMonth (year month : Nat) : Nat :=
  if month = 2 then if isLeapYear year then 29 else 28
  else if month ∈ [4, 6, 9, 11] then 30 else 31

def skipDate? (cs : List Char) : Option (List Char) := do
  let (year, rest) ← digitGroup? 4 cs
  let (month, rest) ← twoDigits? 1 12 (← Text.dropMark? ['-'] rest)
  let (_, rest) ← twoDigits? 1 (daysOfMonth year month) (← Text.dropMark? ['-'] rest)
  return rest

/-- The fraction of a second; a point without a digit behind it is left. -/
def skipFraction (cs : List Char) : List Char :=
  match cs with
  | '.' :: d :: rest => if d.isDigit then rest.dropWhile Char.isDigit else cs
  | _ => cs

def skipTime? (cs : List Char) : Option (List Char) := do
  let (_, rest) ← twoDigits? 0 23 cs
  let (_, rest) ← twoDigits? 0 59 (← Text.dropMark? [':'] rest)
  let (_, rest) ← twoDigits? 0 60 (← Text.dropMark? [':'] rest)
  return skipFraction rest

/-- The distance of a time from that of the meridian, if it is given. -/
def skipOffset (cs : List Char) : List Char :=
  match cs with
  | 'Z' :: rest | 'z' :: rest => rest
  | '+' :: rest | '-' :: rest => (do
      let (_, rest) ← twoDigits? 0 23 rest
      let (_, rest) ← twoDigits? 0 59 (← Text.dropMark? [':'] rest)
      return rest).getD cs
  | _ => cs

/-- The time behind a date; the blank or letter between them belongs to it. -/
def skipTimeOfDate (cs : List Char) : List Char :=
  match cs with
  | 'T' :: rest | 't' :: rest | ' ' :: rest => ((skipTime? rest).map skipOffset).getD cs
  | _ => cs

/-- A date with or without a time, or a time alone. -/
def readMoment (cs : List Char) : Option (Toml × List Char) := do
  let rest ← ((skipDate? cs).map skipTimeOfDate).or (skipTime? cs)
  return (moment (String.ofList (cs.take (cs.length - rest.length))), rest)

end HardwareLinker.Toml
