import HardwareLinker.Toml.Moment
import HardwareLinker.Toml.Token

/-!
Reading a TOML document. A mark of byte order at the very start is skipped. Arrays and braces nest
only so deep; the first argument of their readers is the depth at which they stand.
-/

namespace HardwareLinker.Toml

def readWord (cs : List Char) : Option (Toml × List Char) :=
  [("true", true), ("false", false)].findSome? fun (word, b) =>
    (Text.dropMark? word.toList cs).map fun rest => (bool b, rest)

mutual

def readValue (depth : Nat) : Nat → List Char → Option (Toml × List Char)
  | 0, _ => none
  | fuel + 1, cs =>
    match cs with
    | '"' :: rest => (readString '"' rest).map fun (s, rest) => (string s, rest)
    | '\'' :: rest => (readString '\'' rest).map fun (s, rest) => (string s, rest)
    | '[' :: rest => do
      if nestingLimit ≤ depth + 1 then none
      let (items, rest) ← readItems (depth + 1) fuel rest
      return (array items, rest)
    | c :: rest =>
      if c == '\x7b' then do
        if nestingLimit ≤ depth + 1 then none
        let (members, rest) ← readBraces (depth + 1) fuel (skipSpace rest)
        return (table .braces members, rest)
      else if c == 't' || c == 'f' then readWord cs
      else (readMoment cs).or (readNumber cs)
    | [] => none

/-- Items up to the closing bracket; the last may have a comma behind it. -/
def readItems (depth : Nat) : Nat → List Char → Option (List Toml × List Char)
  | 0, _ => none
  | fuel + 1, cs =>
    match skipFiller false cs with
    | ']' :: rest => some ([], rest)
    | cs => do
      let (v, rest) ← readValue depth fuel cs
      match skipFiller false rest with
      | ',' :: rest => (readItems depth fuel rest).map fun (items, rest) => (v :: items, rest)
      | ']' :: rest => some ([v], rest)
      | _ => none

/-- What stands between braces, which may be nothing. -/
def readBraces (depth : Nat) : Nat → List Char → Option (Table × List Char)
  | 0, _ => none
  | _, [] => none
  | fuel + 1, c :: rest =>
    if c == '\x7d' then some ([], rest) else readPairs depth fuel [] (c :: rest)

/-- Pairs up to the closing brace, all on one line. -/
def readPairs (depth : Nat) : Nat → Table → List Char → Option (Table × List Char)
  | 0, _, _ => none
  | fuel + 1, done, cs => do
    let (path, rest) ← key? cs
    let rest ← Text.dropMark? ['='] rest
    let (v, rest) ← readValue depth fuel (skipSpace rest)
    let done ← addKey path.dropLast (path.getLast?.getD "") v .braces done
    match skipSpace rest with
    | ',' :: rest => readPairs depth fuel done rest
    | c :: rest => if c == '\x7d' then some (done, rest) else none
    | [] => none

end

/-- A header with its closing mark and the rest of its line. -/
def readHeader (repeated : Bool) (d : Document) (cs : List Char) :
    Option (Document × List Char) := do
  let (path, rest) ← key? cs
  let rest ← Text.dropMark? (if repeated then [']', ']'] else [']']) rest
  let rest ← endLine? rest
  return (← d.header path repeated, rest)

def readPair (d : Document) (cs : List Char) : Option (Document × List Char) := do
  let (path, rest) ← key? cs
  let rest ← Text.dropMark? ['='] rest
  let (v, rest) ← readValue 0 (2 * rest.length + 2) (skipSpace rest)
  let rest ← endLine? rest
  return (← d.pair path v, rest)

/-- A line with a header or a pair. -/
def readStatement (d : Document) (cs : List Char) : Option (Document × List Char) :=
  match skipSpace cs with
  | '[' :: '[' :: rest => readHeader true d rest
  | '[' :: rest => readHeader false d rest
  | cs => readPair d cs

def readLines : Nat → Document → List Char → Option Document
  | _, d, [] => some d
  | 0, _, _ => none
  | fuel + 1, d, cs =>
    match endLine? cs with
    | some rest => readLines fuel d rest
    | none => do
      let (d, rest) ← readStatement d cs
      readLines fuel d rest

/-- The root table of a document. -/
def ofText? (s : String) : Option Toml :=
  let cs := s.toList
  let cs := (Text.dropMark? ['\uFEFF'] cs).getD cs
  (readLines (cs.length + 1) {} cs).map fun d => table .header d.root

end HardwareLinker.Toml
