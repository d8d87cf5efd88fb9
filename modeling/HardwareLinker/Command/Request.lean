import HardwareLinker.Command.Switch
import HardwareLinker.Settings

/-!
What a command line asks for: a command with its arguments, and the options that every command has.
-/

namespace HardwareLinker.Command

/-- When output is coloured. -/
inductive Colouring where
  /-- If the terminal can show it. -/
  | auto
  | always
  | never
deriving DecidableEq, Repr

structure Globals where
  /-- Only errors are reported. -/
  quiet : Bool := false
  colouring : Colouring := .auto
  /-- A configuration file to use in place of the one in the working directory. -/
  configuration : Option String := none
deriving DecidableEq, Repr

structure GraphArguments where
  logs : List String
  allowUnmatched : Bool := false
  /-- Where the drawing of the graph goes, a dash standing for the stream of results. -/
  drawing : Option String := none
deriving DecidableEq, Repr

def defaultSnapshots : String := "lim_snapshots"

structure PlaceArguments where
  constraints : String
  resources : Option String := none
  logs : List String := []
  snapshots : String := defaultSnapshots
  backend : Option Backend := none
  /-- Take sizes over from an earlier placement. -/
  reuse : Bool := true
deriving DecidableEq, Repr

structure TreecutArguments where
  logs : List String
  allowUnmatched : Bool := false
  snapshots : String := defaultSnapshots
  /-- Cut along a placement if there is one. -/
  usePlacement : Bool := true
  threshold : Option Nat := none
  /-- Where the report goes if not to the stream of results. -/
  output : Option String := none
deriving DecidableEq, Repr

structure TourArguments where
  snapshots : String := defaultSnapshots
  seed : Option Nat := none
deriving DecidableEq, Repr

inductive Request where
  | graph (a : GraphArguments)
  | place (a : PlaceArguments)
  | treecut (a : TreecutArguments)
  | tour (a : TourArguments)
deriving DecidableEq, Repr

/-! ## Values of options -/

/-- Turns away a command line that lacks something. -/
def demand {β : Type} : Option β → Except Stop β
  | some x => .ok x
  | none => .error .usage

def isPath (s : String) : Bool := !s.isEmpty

def word64? (s : String) : Option Nat := natBelow? (UInt64.size - 1) s

def backend? (s : String) : Option Backend :=
  [("builtin", Backend.builtin), ("cbc", .cbc), ("glpk", .glpk)].lookup s

def colouring? (s : String) : Option Colouring :=
  [("auto", Colouring.auto), ("always", .always), ("never", .never)].lookup s

/-- An option with a value that is read. -/
def reading {β : Type} (name : String) (read : String → Option β) : Switch :=
  { name, arity := .one, accepts := fun s => (read s).isSome }

/-- An option with the path of a file or directory. -/
def pathSwitch (name : String) (short : Option Char) : Switch :=
  { name, short, arity := .one, accepts := isPath }

/-! ## Commands -/

def globalSwitches : List Switch :=
  [{ name := "quiet", short := some 'q' }, { name := "verbose", short := some 'v' },
    reading "color" colouring?, { name := "config", arity := .one },
    { name := "help", short := some 'h' }]

def root : Grammar :=
  { switches := globalSwitches ++ [{ name := "version", short := some 'V' }] }

def snapshotsSwitch : Switch := pathSwitch "snapshot-dir" none

def readSnapshots (s : Scan) : String := (s.value? snapshotsSwitch.name).getD defaultSnapshots

/-- At least one log has to be given. -/
def readLogs (s : Scan) : Except Stop (List String) :=
  if s.words.isEmpty then .error .usage else .ok s.words

/-- A command: what may stand behind its name, and how its arguments are read off. -/
structure CommandForm where
  switches : List Switch
  /-- Whether words that belong to no option are the paths of logs; else there may be none. -/
  takesLogs : Bool
  read : Scan → Except Stop Request

def CommandForm.grammar (f : CommandForm) : Grammar :=
  { switches := globalSwitches ++ f.switches
    acceptsWord := if f.takesLogs then some isPath else none }

def graphForm : CommandForm where
  switches := [{ name := "allow-unmatched" }, pathSwitch "dot" none]
  takesLogs := true
  read s := do
    return .graph
      { logs := ← readLogs s
        allowUnmatched := s.has "allow-unmatched"
        drawing := s.value? "dot" }

def placeForm : CommandForm where
  switches :=
    [pathSwitch "constraints" (some 'C'), pathSwitch "resources" (some 'r'),
      { name := "log", arity := .many, accepts := isPath }, snapshotsSwitch,
      reading "solver" backend?, { name := "no-reuse" }]
  takesLogs := false
  read s := do
    return .place
      { constraints := ← demand (s.value? "constraints")
        resources := s.value? "resources"
        logs := s.values "log"
        snapshots := readSnapshots s
        backend := s.value? "solver" >>= backend?
        reuse := !s.has "no-reuse" }

def treecutForm : CommandForm where
  switches :=
    [{ name := "allow-unmatched" }, snapshotsSwitch, { name := "no-placement" },
      reading "threshold" word64?, pathSwitch "output" (some 'o')]
  takesLogs := true
  read s := do
    return .treecut
      { logs := ← readLogs s
        allowUnmatched := s.has "allow-unmatched"
        snapshots := readSnapshots s
        usePlacement := !s.has "no-placement"
        threshold := s.value? "threshold" >>= word64?
        output := s.value? "output" }

def tourForm : CommandForm where
  switches := [snapshotsSwitch, reading "seed" word64?]
  takesLogs := false
  read s :=
    .ok (.tour { snapshots := readSnapshots s, seed := s.value? "seed" >>= word64? })

def commands : List (String × CommandForm) :=
  [("graph", graphForm), ("place", placeForm), ("treecut", treecutForm), ("tour", tourForm)]

/-- The command that tells about the others. -/
def helpName : String := "help"

/-- Help is on all commands, or on one that there is. -/
def helpOn : List String → Stop
  | [] => .help
  | [name] => if name == helpName || (commands.lookup name).isSome then .help else .usage
  | _ => .usage

/-- Options that every command has may stand before and behind its name; behind it they weigh
more. -/
def readGlobals (before behind : Scan) : Globals :=
  { quiet := before.has "quiet" || behind.has "quiet"
    colouring := ((behind.value? "color" <|> before.value? "color") >>= colouring?).getD .auto
    configuration := behind.value? "config" <|> before.value? "config" }

/-- Reads the words behind the name of the program. -/
def read (words : List String) : Except Stop (Globals × Request) := do
  let (before, words) ← Scan.lead root {} words
  match words with
  | [] => throw .usage
  | name :: words =>
    if name == helpName then throw (helpOn words)
    let form ← demand (commands.lookup name)
    let behind ← Scan.run form.grammar {} words
    let request ← form.read behind
    return (readGlobals (← before.close) behind, request)

end HardwareLinker.Command
