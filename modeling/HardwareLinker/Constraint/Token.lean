import HardwareLinker.Text.Blank
import HardwareLinker.Text.Lines

/-!
The text of a constraint file, cut into statements and tokens. Statements end with a semicolon and
may span lines; a hash starts a comment up to the end of its line. Neither has this meaning inside
double quotes, and quoted text may span lines. A statement is numbered with the line of its first
character that is neither blank nor a quote; one without such a character is dropped.
-/

namespace HardwareLinker.Constraint

/-- The cutting of a text into statements: those found, and the one being read, last character
first. -/
structure Scan where
  found : List (Nat × List Char) := []
  current : List Char := []
  start : Option Nat := none
  quoted : Bool := false

namespace Scan

def push (s : Scan) (c : Char) : Scan := { s with current := c :: s.current }

/-- Ends the statement being read. -/
def close (s : Scan) : Scan :=
  let s := match s.start with
    | some line => { s with found := s.found ++ [(line, s.current.reverse)] }
    | none => s
  { s with current := [], start := none }

/-- Reads a character of a statement. -/
def take (s : Scan) (line : Nat) (c : Char) : Scan :=
  let start := if s.start.isNone && !Text.isBlank c then some line else s.start
  { s.push c with start }

/-- Reads one line; its end counts as a blank. -/
def readLine (line : Nat) (s : Scan) : List Char → Scan
  | [] => s.push ' '
  | c :: rest =>
    if c == '"' then readLine line { s.push c with quoted := !s.quoted } rest
    else if c == '#' && !s.quoted then s.push ' '
    else if c == ';' && !s.quoted then readLine line s.close rest
    else readLine line (s.take line c) rest

end Scan

/-- The statements of a text with the lines that they start on. -/
def statements (source : List Char) : List (Nat × List Char) :=
  let scan := ((Text.lines source).zipIdx 1).foldl (fun s (line, n) => Scan.readLine n s line) {}
  scan.close.found

inductive Token where
  | word (text : String)
  | quoted (text : String)
  | comma
  | equals
deriving DecidableEq, Repr

namespace Token

def endsWord (c : Char) : Bool := Text.isBlank c || c == ',' || c == '=' || c == '"'

/-- The tokens of a statement; nothing if a quote is left open. -/
def ofList? (cs : List Char) : Option (List Token) :=
  match cs with
  | [] => some []
  | c :: rest =>
    if Text.isBlank c then ofList? rest
    else if c == ',' then (ofList? rest).map (comma :: ·)
    else if c == '=' then (ofList? rest).map (equals :: ·)
    else if c == '"' then
      match h : Text.splitOnce '"' rest with
      | none => none
      | some (inside, after) =>
        have := Text.length_of_splitOnce h
        (ofList? after).map (quoted (String.ofList inside) :: ·)
    else
      have := (List.dropWhile_sublist (l := rest) (! endsWord ·)).length_le
      (ofList? (rest.dropWhile (! endsWord ·))).map
        (word (String.ofList (c :: rest.takeWhile (! endsWord ·))) :: ·)
termination_by cs.length
decreasing_by
  all_goals
    simp_all only [List.length_cons]
    omega

end Token
end HardwareLinker.Constraint
