import HardwareLinker.Text.Lines
import HardwareLinker.Toml.Basic

/-!
The pieces of a TOML text: blanks, line ends, comments, strings, keys and numbers. Each reader
answers what it read and what is left. Control characters other than tabs are refused everywhere.
-/

namespace HardwareLinker.Toml

def isSpace (c : Char) : Bool := c == ' ' || c == '\t'

def skipSpace (cs : List Char) : List Char := cs.dropWhile isSpace

/-- What may stand inside a line. -/
def isInline (c : Char) : Bool := c == '\t' || (0x20 ≤ c.toNat && c != '\x7f')

def dropNewline? : List Char → Option (List Char)
  | '\n' :: rest => some rest
  | '\r' :: '\n' :: rest => some rest
  | _ => none

def skipComment : List Char → List Char
  | '#' :: rest => rest.dropWhile isInline
  | cs => cs

/-- The next line, if nothing but blanks and a comment are left of this one. -/
def endLine? (cs : List Char) : Option (List Char) :=
  match skipComment (skipSpace cs) with
  | [] => some []
  | rest => dropNewline? rest

/-- Blanks and line ends. -/
def skipBlank : List Char → List Char
  | ' ' :: rest | '\t' :: rest | '\n' :: rest => skipBlank rest
  | '\r' :: '\n' :: rest => skipBlank rest
  | cs => cs

/-- Blanks, line ends and comments; the flag tells whether a comment is running. -/
def skipFiller : Bool → List Char → List Char
  | _, '\n' :: rest => skipFiller false rest
  | _, '\r' :: '\n' :: rest => skipFiller false rest
  | true, c :: rest => if isInline c then skipFiller true rest else c :: rest
  | false, c :: rest =>
    if isSpace c then skipFiller false rest
    else if c == '#' then skipFiller true rest
    else c :: rest
  | _, [] => []

/-! ## Strings and keys -/

def hexDigit? (c : Char) : Option Nat :=
  if c.isDigit then some (c.toNat - '0'.toNat)
  else if 'a' ≤ c && c ≤ 'f' then some (c.toNat - 'a'.toNat + 10)
  else if 'A' ≤ c && c ≤ 'F' then some (c.toNat - 'A'.toNat + 10)
  else none

/-- The character whose code point is written in exactly `n` hexadecimal digits. -/
def codePoint? (n : Nat) (cs : List Char) : Option (Char × List Char) := do
  let digits ← (cs.take n).mapM hexDigit?
  let value := digits.foldl (fun v d => 16 * v + d) 0
  if digits.length = n ∧ value.isValidChar then return (Char.ofNat value, cs.drop n) else none

def simpleEscapes : List (Char × Char) :=
  [('b', '\x08'), ('t', '\t'), ('n', '\n'), ('f', '\x0c'), ('r', '\r'), ('"', '"'), ('\\', '\\')]

/-- The character that is written behind a backslash. -/
def escaped? : List Char → Option (Char × List Char)
  | 'u' :: rest => codePoint? 4 rest
  | 'U' :: rest => codePoint? 8 rest
  | c :: rest => (simpleEscapes.lookup c).map fun e => (e, rest)
  | [] => none

/-- A string on one line up to its closing mark; behind double quotes a backslash escapes. -/
def readLine (mark : Char) : Nat → List Char → List Char → Option (String × List Char)
  | 0, _, _ => none
  | _, _, [] => none
  | fuel + 1, done, c :: rest =>
    if c == mark then some (String.ofList done.reverse, rest)
    else if mark == '"' && c == '\\' then do
      let (e, rest) ← escaped? rest
      readLine mark fuel (e :: done) rest
    else if isInline c then readLine mark fuel (c :: done) rest
    else none

/-- The text behind a backslash at the end of a line: it goes on at the next character that is
neither blank nor line end. -/
def continuation? (cs : List Char) : Option (List Char) :=
  (dropNewline? (skipSpace cs)).map skipBlank

/-- A string over several lines up to its three closing marks; up to two more marks right before
them are text. -/
def readBlock (mark : Char) : Nat → List Char → List Char → Option (String × List Char)
  | 0, _, _ => none
  | _, _, [] => none
  | fuel + 1, done, c :: rest =>
    if c == mark then
      let marks := (c :: rest).takeWhile (· == mark)
      let rest := (c :: rest).dropWhile (· == mark)
      if marks.length < 3 then readBlock mark fuel (marks ++ done) rest
      else
        let kept := min (marks.length - 3) 2
        some (String.ofList (done.reverse ++ marks.take kept), marks.drop (kept + 3) ++ rest)
    else if mark == '"' && c == '\\' then
      match continuation? rest with
      | some rest => readBlock mark fuel done rest
      | none => do
        let (e, rest) ← escaped? rest
        readBlock mark fuel (e :: done) rest
    else
      match dropNewline? (c :: rest) with
      | some rest => readBlock mark fuel ('\n' :: done) rest
      | none => if isInline c then readBlock mark fuel (c :: done) rest else none

/-- A string after its first mark. -/
def readString (mark : Char) (cs : List Char) : Option (String × List Char) :=
  match Text.dropMark? [mark, mark] cs with
  | some rest => readBlock mark (rest.length + 1) [] ((dropNewline? rest).getD rest)
  | none => readLine mark (cs.length + 1) [] cs

def isBare (c : Char) : Bool := c.isAlphanum || c == '_' || c == '-'

def simpleKey? : List Char → Option (String × List Char)
  | '"' :: rest => readLine '"' (rest.length + 1) [] rest
  | '\'' :: rest => readLine '\'' (rest.length + 1) [] rest
  | cs =>
    match cs.span isBare with
    | ([], _) => none
    | (name, rest) => some (String.ofList name, rest)

/-- Keys with points between them. -/
def readKey : Nat → List Char → Option (List String × List Char)
  | 0, _ => none
  | fuel + 1, cs => do
    let (k, rest) ← simpleKey? (skipSpace cs)
    match skipSpace rest with
    | '.' :: rest => (readKey fuel rest).map fun (path, rest) => (k :: path, rest)
    | rest => return ([k], rest)

/-- A dotted key may have fewer parts than this, and arrays and braces may nest less deep. -/
def nestingLimit : Nat := 80

def key? (cs : List Char) : Option (List String × List Char) := do
  let (path, rest) ← readKey (cs.length + 1) cs
  if path.length < nestingLimit then return (path, rest) else none

/-! ## Numbers -/

/-- Digits after a first one; an underscore stands between two digits. -/
def moreDigits (isDigit : Char → Bool) : List Char → Option (List Char × List Char)
  | '_' :: d :: rest =>
    if isDigit d then (moreDigits isDigit rest).map fun (ds, rest) => (d :: ds, rest) else none
  | ['_'] => none
  | d :: rest =>
    if isDigit d then (moreDigits isDigit rest).map fun (ds, rest) => (d :: ds, rest)
    else some ([], d :: rest)
  | [] => some ([], [])

def digits? (isDigit : Char → Bool) : List Char → Option (List Char × List Char)
  | d :: rest =>
    if isDigit d then (moreDigits isDigit rest).map fun (ds, rest) => (d :: ds, rest) else none
  | [] => none

/-- An integer has 64 bits. -/
def integer? (n : Int) : Option Toml :=
  if Int64.minValue.toInt ≤ n ∧ n ≤ Int64.maxValue.toInt then some (integer n) else none

def isBaseDigit (base : Nat) (c : Char) : Bool :=
  ((hexDigit? c).map fun d => decide (d < base)).getD false

def readBased (base : Nat) (cs : List Char) : Option (Toml × List Char) := do
  let (digits, rest) ← digits? (isBaseDigit base) cs
  let value := digits.foldl (fun v c => base * v + (hexDigit? c).getD 0) 0
  return (← integer? value, rest)

/-- A positive number too large for its format is refused. -/
def real? (n : Numeral) : Option Toml :=
  match n with
  | .finite false .. => if n.toBinary64.isInfinite then none else some (real n)
  | _ => some (real n)

/-- The whole digits of a decimal number: a zero stands alone. -/
def whole? : List Char → Option (List Char × List Char)
  | '0' :: rest => some (['0'], rest)
  | cs => digits? Char.isDigit cs

/-- An exponent, if one is there. -/
def exponent? : List Char → Option (Int × List Char)
  | c :: rest =>
    if c == 'e' || c == 'E' then do
      let (negative, rest) := Numeral.takeSign rest
      let (digits, rest) ← digits? Char.isDigit rest
      let n : Int := Numeral.natOfDigits digits
      return (if negative then -n else n, rest)
    else some (0, c :: rest)
  | [] => some (0, [])

/-- A decimal number after its sign. With a fraction or an exponent it is real, else an integer. -/
def readDecimal (negative : Bool) (cs : List Char) : Option (Toml × List Char) := do
  let (whole, rest) ← whole? cs
  match rest with
  | '.' :: rest =>
    let (fraction, rest) ← digits? Char.isDigit rest
    let (e, rest) ← exponent? rest
    let n := Numeral.finite negative (Numeral.natOfDigits (whole ++ fraction)) (e - fraction.length)
    return (← real? n, rest)
  | 'e' :: _ | 'E' :: _ =>
    let (e, rest) ← exponent? rest
    return (← real? (.finite negative (Numeral.natOfDigits whole) e), rest)
  | rest =>
    let n : Int := Numeral.natOfDigits whole
    return (← integer? (if negative then -n else n), rest)

def readNumber (cs : List Char) : Option (Toml × List Char) :=
  let (negative, rest) := Numeral.takeSign cs
  match rest with
  | 'i' :: 'n' :: 'f' :: rest => some (real (.infinite negative), rest)
  | 'n' :: 'a' :: 'n' :: rest => some (real (.notANumber negative), rest)
  | _ =>
    match cs with
    | '0' :: 'x' :: rest => readBased 16 rest
    | '0' :: 'o' :: rest => readBased 8 rest
    | '0' :: 'b' :: rest => readBased 2 rest
    | _ => readDecimal negative rest

end HardwareLinker.Toml
