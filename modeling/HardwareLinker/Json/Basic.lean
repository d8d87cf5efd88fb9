import HardwareLinker.Decimal.Written

/-!
JSON values and their text. Members of an object keep the order in which they are given, and numbers
their digits.
-/

namespace HardwareLinker

inductive Json where
  | null
  | bool (b : Bool)
  | number (n : Decimal.Written)
  | string (s : String)
  | array (items : List Json)
  | object (members : List (String × Json))

namespace Json

def natural (n : Nat) : Json := number (.ofNat n)

def option {β : Type} (f : β → Json) : Option β → Json
  | some b => f b
  | none => null

def strings (l : List String) : Json := array (l.map string)

def controlEscape (c : Char) : List Char :=
  ['\\', 'u', '0', '0', Nat.digitChar (c.toNat / 16), Nat.digitChar (c.toNat % 16)]

/-- Quotes, backslashes and control characters are escaped, all else stands for itself. -/
def escape (c : Char) : List Char :=
  if c == '"' then ['\\', '"']
  else if c == '\\' then ['\\', '\\']
  else if c == '\n' then ['\\', 'n']
  else if c == '\r' then ['\\', 'r']
  else if c == '\t' then ['\\', 't']
  else if c == '\x08' then ['\\', 'b']
  else if c == '\x0c' then ['\\', 'f']
  else if c.toNat < 0x20 then controlEscape c
  else [c]

def quote (s : String) : String :=
  "\"" ++ String.ofList (s.toList.flatMap escape) ++ "\""

mutual

/-- All on one line, without blanks. -/
def compact : Json → String
  | null => "null"
  | bool b => if b then "true" else "false"
  | number n => n.text
  | string s => quote s
  | array items => "[" ++ ",".intercalate (compactItems items) ++ "]"
  | object members => "\x7b" ++ ",".intercalate (compactMembers members) ++ "\x7d"

def compactItems : List Json → List String
  | [] => []
  | x :: rest => x.compact :: compactItems rest

def compactMembers : List (String × Json) → List String
  | [] => []
  | (k, v) :: rest => (quote k ++ ":" ++ v.compact) :: compactMembers rest

end

def indent (depth : Nat) : String := String.ofList (List.replicate (2 * depth) ' ')

mutual

/-- One item a line, two blanks a level; empty collections on one line. -/
def pretty (depth : Nat) : Json → String
  | null => "null"
  | bool b => if b then "true" else "false"
  | number n => n.text
  | string s => quote s
  | array [] => "[]"
  | array (x :: rest) =>
    "[\n" ++ indent (depth + 1) ++ x.pretty (depth + 1) ++ prettyItems (depth + 1) rest
      ++ "\n" ++ indent depth ++ "]"
  | object [] => "\x7b\x7d"
  | object ((k, v) :: rest) =>
    "\x7b\n" ++ indent (depth + 1) ++ quote k ++ ": " ++ v.pretty (depth + 1)
      ++ prettyMembers (depth + 1) rest ++ "\n" ++ indent depth ++ "\x7d"

def prettyItems (depth : Nat) : List Json → String
  | [] => ""
  | x :: rest => ",\n" ++ indent depth ++ x.pretty depth ++ prettyItems depth rest

def prettyMembers (depth : Nat) : List (String × Json) → String
  | [] => ""
  | (k, v) :: rest =>
    ",\n" ++ indent depth ++ quote k ++ ": " ++ v.pretty depth ++ prettyMembers depth rest

end

end Json
end HardwareLinker
