import HardwareLinker.Decimal.Numeral

/-!
Values of TOML documents, and the rules by which headers and dotted keys build their tables: a key
has one value, and a table that has been written out is closed to all later headers and dotted keys.
-/

namespace HardwareLinker

namespace Toml

/-- How a table came into being, which decides what may still be added to it. -/
inductive Origin where
  /-- Written out under its own header, or the root. -/
  | header
  /-- Only passed through on the way to a longer header. -/
  | passage
  | dottedKey
  | braces
deriving DecidableEq, Repr

end Toml

inductive Toml where
  | string (s : String)
  | integer (n : Int)
  | real (n : Numeral)
  | bool (b : Bool)
  /-- A date, a time, or both, as it is written. -/
  | moment (text : String)
  | array (items : List Toml)
  | table (origin : Toml.Origin) (members : List (String × Toml))
  /-- Tables under one repeated header. -/
  | tables (items : List (List (String × Toml)))

namespace Toml

abbrev Table := List (String × Toml)

/-- Gives a key its value, in place of an earlier one if there is one. -/
def Table.put (k : String) (v : Toml) : Table → Table
  | [] => [(k, v)]
  | e :: rest => if e.1 == k then (k, v) :: rest else e :: put k v rest

/-- Whether a path may pass through a table: a dotted key only where no header and no braces wrote
the table out. -/
def Origin.admits (table step : Origin) : Bool :=
  match table with
  | .braces => false
  | .header => step != .dottedKey
  | _ => true

/-- Applies a change at the end of a path. Missing tables are created with the given origin; of
repeated tables the path goes through the last. -/
def changeAt (step : Origin) (change : Origin → Table → Option Table) :
    List String → Origin → Table → Option Table
  | [], origin, t => change origin t
  | k :: path, _, t =>
    match t.lookup k with
    | none => (changeAt step change path step []).map fun m => t.put k (table step m)
    | some (table origin m) =>
      if origin.admits step then
        (changeAt step change path origin m).map fun m => t.put k (table origin m)
      else none
    | some (tables items) =>
      match items.getLast? with
      | none => none
      | some m =>
        (changeAt step change path .header m).map fun m => t.put k (tables (items.dropLast ++ [m]))
    | some _ => none

/-- A new key at the end of a dotted key; the table there is the one that the key started from or
one that dotted keys made. -/
def addKey (path : List String) (k : String) (v : Toml) : Origin → Table → Option Table :=
  changeAt .dottedKey (fun origin t =>
    if (path.isEmpty || origin == .dottedKey) && (t.lookup k).isNone then some (t.put k v)
    else none) path

/-- Opens a table under its header; it may have been passed through, but not been opened before. -/
def openTable (k : String) (_ : Origin) (t : Table) : Option Table :=
  match t.lookup k with
  | none => some (t.put k (table .header []))
  | some (table .passage m) => some (t.put k (table .header m))
  | some _ => none

/-- Opens one more of the tables under a repeated header. -/
def openRepeated (k : String) (_ : Origin) (t : Table) : Option Table :=
  match t.lookup k with
  | none => some (t.put k (tables [[]]))
  | some (tables items) => some (t.put k (tables (items ++ [[]])))
  | some _ => none

/-- A document while it is read: its root, and the path of the header that holds. -/
structure Document where
  root : Table := []
  current : List String := []

namespace Document

def header (d : Document) (path : List String) (repeated : Bool) : Option Document := do
  let k ← path.getLast?
  let change := if repeated then openRepeated k else openTable k
  return ⟨← changeAt .passage change path.dropLast .header d.root, path⟩

def pair (d : Document) (key : List String) (v : Toml) : Option Document := do
  let k ← key.getLast?
  let change := addKey key.dropLast k v
  return { d with root := ← changeAt .passage change d.current .header d.root }

end Document
end Toml
end HardwareLinker
