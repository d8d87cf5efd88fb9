import HardwareLinker.Text.Lines

/-!
Options among the words of a command line. A long option may have its value behind an equals sign, a
short one right behind its letter; else the words that follow are its values, as long as they do not
look like options. After two dashes every word stands for itself.

Values and words are looked at when the next option comes up, or at the end: the fault of an option
goes before the help that a later one asks for.
-/

namespace HardwareLinker.Command

/-- How many values an option takes. -/
inductive Arity where
  | flag
  | one
  | many
deriving DecidableEq, Repr

structure Switch where
  name : String
  short : Option Char := none
  arity : Arity := .flag
  /-- Whether a value reads. -/
  accepts : String → Bool := fun _ => true

/-- What may stand on a command line. -/
structure Grammar where
  switches : List Switch
  /-- The words that belong to no option, where there may be any. -/
  acceptsWord : Option (String → Bool) := none

/-- Why a command line is not carried out. -/
inductive Stop where
  | usage
  | help
  | version
deriving DecidableEq, Repr

/-- The words read so far: options with their values, and the words that belong to none. -/
structure Scan where
  options : List (String × List String) := []
  words : List String := []
  /-- The last option with the values it has got so far. -/
  awaiting : Option (Switch × List String) := none

namespace Scan

def has (s : Scan) (name : String) : Bool := s.options.any (·.1 == name)

/-- All values of an option. -/
def values (s : Scan) (name : String) : List String :=
  s.options.flatMap fun (k, vs) => if k == name then vs else []

def value? (s : Scan) (name : String) : Option String := (s.values name).head?

/-- Only an option with many values may be given twice, and all values have to read. -/
def record (s : Scan) (o : Switch) (values : List String) : Except Stop Scan :=
  if (o.arity ≠ .many ∧ s.has o.name) || !values.all o.accepts then .error .usage
  else .ok { s with options := s.options ++ [(o.name, values)], awaiting := none }

/-- Ends the last option; it must have got a value. -/
def close (s : Scan) : Except Stop Scan :=
  match s.awaiting with
  | none => .ok s
  | some (_, []) => .error .usage
  | some (o, values) => s.record o values

/-- Ends the last option, and looks at the words between it and the next one. -/
def settle (g : Grammar) (s : Scan) : Except Stop Scan :=
  match g.acceptsWord with
  | some accepts => if s.words.all accepts then s.close else .error .usage
  | none => s.close

/-- Whether the last option takes one more word as its value. -/
def isOpen (s : Scan) : Bool :=
  s.awaiting.any fun (o, values) => o.arity == .many || values.isEmpty

def word (g : Grammar) (s : Scan) (w : String) : Except Stop Scan :=
  if s.isOpen then
    .ok { s with awaiting := s.awaiting.map fun (o, values) => (o, values ++ [w]) }
  else if g.acceptsWord.isNone then .error .usage
  else do
    let s ← s.close
    return { s with words := s.words ++ [w] }

/-- An option without an attached value. -/
def start (g : Grammar) (s : Scan) (o : Switch) : Except Stop Scan := do
  let s ← s.settle g
  if o.name == "help" then throw .help
  else if o.name == "version" then throw .version
  else if o.arity = .flag then s.record o []
  else return { s with awaiting := some (o, []) }

def attached (g : Grammar) (s : Scan) (o : Switch) (value : String) : Except Stop Scan := do
  let s ← s.settle g
  if o.arity = .flag then throw .usage else s.record o [value]

def long (g : Grammar) (s : Scan) (cs : List Char) : Except Stop Scan :=
  let (name, value) := match Text.splitOnce '=' cs with
    | some (name, value) => (name, some (String.ofList value))
    | none => (cs, none)
  match g.switches.find? (·.name == String.ofList name) with
  | none => .error .usage
  | some o =>
    match value with
    | some v => s.attached g o v
    | none => s.start g o

/-- Letters behind one dash; the rest behind an option with values is its value. -/
def cluster (g : Grammar) (s : Scan) : List Char → Except Stop Scan
  | [] => .ok s
  | c :: rest =>
    match g.switches.find? (·.short == some c) with
    | none => .error .usage
    | some o =>
      if o.arity = .flag then do cluster g (← s.start g o) rest
      else
        match rest with
        | [] => s.start g o
        | '=' :: value => s.attached g o (String.ofList value)
        | value => s.attached g o (String.ofList value)

def option (g : Grammar) (s : Scan) (w : String) : Except Stop Scan :=
  match w.toList with
  | '-' :: '-' :: cs => s.long g cs
  | '-' :: cs => s.cluster g cs
  | _ => s.word g w

/-- A single dash is a word. -/
def isOption (w : String) : Bool := w.startsWith "-" && w != "-"

/-- The words behind two dashes: none is an option, and none is a value. -/
def rest (g : Grammar) (s : Scan) : List String → Except Stop Scan
  | [] => s.settle g
  | w :: words => do rest g (← (← s.close).word g w) words

/-- Reads words to their end. -/
def run (g : Grammar) : Scan → List String → Except Stop Scan
  | s, [] => s.settle g
  | s, w :: words =>
    if w == "--" then s.rest g words
    else if isOption w then do run g (← s.option g w) words
    else do run g (← s.word g w) words

/-- Reads options up to the first word that belongs to none; that word and all behind it are left.
The last option is left open. -/
def lead (g : Grammar) : Scan → List String → Except Stop (Scan × List String)
  | s, [] => .ok (s, [])
  | s, w :: words =>
    if w == "--" then .error .usage
    else if isOption w then do lead g (← s.option g w) words
    else if s.isOpen then do lead g (← s.word g w) words
    else .ok (s, w :: words)

end Scan
end HardwareLinker.Command
