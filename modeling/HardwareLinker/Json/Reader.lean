import HardwareLinker.Json.Basic
import HardwareLinker.Text.Lines

/-!
Reading JSON text. Blanks are the four of the format; control characters inside strings and
surrogates that are not paired are refused. Nesting is bounded by the length of the text.
-/

namespace HardwareLinker.Json

def isSpace (c : Char) : Bool := c == ' ' || c == '\n' || c == '\t' || c == '\r'

def skipSpace (cs : List Char) : List Char := cs.dropWhile isSpace

def hexDigit? (c : Char) : Option Nat :=
  if c.isDigit then some (c.toNat - '0'.toNat)
  else if 'a' ≤ c && c ≤ 'f' then some (c.toNat - 'a'.toNat + 10)
  else if 'A' ≤ c && c ≤ 'F' then some (c.toNat - 'A'.toNat + 10)
  else none

/-- The number that four hexadecimal digits write. -/
def hex4? : List Char → Option (Nat × List Char)
  | a :: b :: c :: d :: rest => do
    let value := ((← hexDigit? a) * 16 + (← hexDigit? b)) * 256
      + (← hexDigit? c) * 16 + (← hexDigit? d)
    return (value, rest)
  | _ => none

def isHighSurrogate (n : Nat) : Bool := 0xD800 ≤ n && n < 0xDC00

def isLowSurrogate (n : Nat) : Bool := 0xDC00 ≤ n && n < 0xE000

/-- The character that follows the mark of a code point; outside the basic plane it is written as
two surrogates. -/
def unicodeEscape? (cs : List Char) : Option (Char × List Char) := do
  let (high, rest) ← hex4? cs
  if isHighSurrogate high then
    let (low, rest) ← hex4? (← Text.dropMark? ['\\', 'u'] rest)
    if isLowSurrogate low then
      return (Char.ofNat (0x10000 + (high - 0xD800) * 0x400 + (low - 0xDC00)), rest)
    else none
  else if isLowSurrogate high then none
  else return (Char.ofNat high, rest)

def simpleEscape? (c : Char) : Option Char :=
  [('"', '"'), ('\\', '\\'), ('/', '/'), ('b', '\x08'), ('f', '\x0c'), ('n', '\n'), ('r', '\r'),
    ('t', '\t')].lookup c

/-- The inside of a string up to its closing quote. -/
def readString : Nat → List Char → List Char → Option (String × List Char)
  | 0, _, _ => none
  | _, _, [] => none
  | fuel + 1, done, c :: rest =>
    if c == '"' then some (String.ofList done.reverse, rest)
    else if c == '\\' then
      match rest with
      | 'u' :: rest => do
        let (c, rest) ← unicodeEscape? rest
        readString fuel (c :: done) rest
      | e :: rest => do readString fuel ((← simpleEscape? e) :: done) rest
      | [] => none
    else if c.toNat < 0x20 then none
    else readString fuel (c :: done) rest

/-- The whole part of a number: no zero before other digits. -/
def wholePart? (cs : List Char) : Option (List Char × List Char) :=
  match Numeral.takeDigits cs with
  | (['0'], rest) => some (['0'], rest)
  | ('0' :: _, _) | ([], _) => none
  | (digits, rest) => some (digits, rest)

/-- The fraction after a whole part; a point needs a digit behind it. -/
def fractionPart? : List Char → Option (List Char × List Char)
  | '.' :: rest =>
    match Numeral.takeDigits rest with
    | ([], _) => none
    | (digits, rest) => some (digits, rest)
  | rest => some ([], rest)

def exponentPart? : List Char → Option (Int × List Char)
  | c :: rest =>
    if c == 'e' || c == 'E' then
      let (negative, rest) := Numeral.takeSign rest
      match Numeral.takeDigits rest with
      | ([], _) => none
      | (digits, rest) =>
        let n : Int := Numeral.natOfDigits digits
        some (if negative then -n else n, rest)
    else some (0, c :: rest)
  | [] => some (0, [])

def readNumber (negative : Bool) (cs : List Char) : Option (Json × List Char) := do
  let (whole, rest) ← wholePart? cs
  let (fraction, rest) ← fractionPart? rest
  let (exponent, rest) ← exponentPart? rest
  return (number { negative, whole, fraction, exponent }, rest)

def words : List (List Char × Json) :=
  [("null".toList, null), ("true".toList, bool true), ("false".toList, bool false)]

/-- One of the three words. -/
def readWord (cs : List Char) : Option (Json × List Char) :=
  words.findSome? fun (word, value) => (Text.dropMark? word cs).map fun rest => (value, rest)

mutual

def readValue : Nat → List Char → Option (Json × List Char)
  | 0, _ => none
  | fuel + 1, cs =>
    match skipSpace cs with
    | '"' :: rest => (readString (rest.length + 1) [] rest).map fun (s, rest) => (string s, rest)
    | '-' :: rest => readNumber true rest
    | '[' :: rest =>
      match skipSpace rest with
      | ']' :: rest => some (array [], rest)
      | rest => (readItems fuel rest).map fun (items, rest) => (array items, rest)
    | c :: rest =>
      if c == '\x7b' then
        match skipSpace rest with
        | [] => none
        | d :: rest =>
          if d == '\x7d' then some (object [], rest)
          else (readMembers fuel (d :: rest)).map fun (members, rest) => (object members, rest)
      else if c.isDigit then readNumber false (c :: rest)
      else readWord (c :: rest)
    | [] => none

/-- Items up to the closing bracket. -/
def readItems : Nat → List Char → Option (List Json × List Char)
  | 0, _ => none
  | fuel + 1, cs => do
    let (x, rest) ← readValue fuel cs
    match skipSpace rest with
    | ',' :: rest => (readItems fuel rest).map fun (items, rest) => (x :: items, rest)
    | ']' :: rest => some ([x], rest)
    | _ => none

/-- Members up to the closing brace. -/
def readMembers : Nat → List Char → Option (List (String × Json) × List Char)
  | 0, _ => none
  | fuel + 1, cs => do
    let key ← Text.dropMark? ['"'] (skipSpace cs)
    let (key, rest) ← readString (key.length + 1) [] key
    let rest ← Text.dropMark? [':'] (skipSpace rest)
    let (x, rest) ← readValue fuel rest
    match skipSpace rest with
    | ',' :: rest => (readMembers fuel rest).map fun (members, rest) => ((key, x) :: members, rest)
    | c :: rest => if c == '\x7d' then some ([(key, x)], rest) else none
    | [] => none

end

/-- The value of a text that holds one value and blanks. -/
def ofText? (s : String) : Option Json := do
  let cs := s.toList
  let (value, rest) ← readValue (cs.length + 1) cs
  if (skipSpace rest).isEmpty then some value else none

end HardwareLinker.Json
