import HardwareLinker.Host
import HardwareLinker.Workspace.Route

/-!
A machine as a value: a tree of files with a working directory in it, and what has been written to
the two streams. Paths are walked name by name. Which of several faults of a path is told depends on
what was to be done there.
-/

namespace HardwareLinker

inductive Entry where
  | file (bytes : List UInt8)
  | directory
  /-- Has no bytes, and what is written to it is lost. -/
  | void
deriving DecidableEq

/-- A place in the tree, by the names from the root. -/
abbrev Place := List String

structure Workspace where
  entries : List (Place × Entry) := []
  /-- The working directory. -/
  home : Place := []
  printed : String := ""
  reported : String := ""

namespace Workspace

/-- The root is always there. -/
def entry? (w : Workspace) (place : Place) : Option Entry :=
  if place.isEmpty then some .directory else w.entries.lookup place

def erase (w : Workspace) (place : Place) : Workspace :=
  { w with entries := w.entries.filter fun e => e.1 != place }

def put (w : Workspace) (place : Place) (e : Entry) : Workspace :=
  { w with entries := (w.erase place).entries ++ [(place, e)] }

/-! ## Finding places -/

/-- The bytes that a name may have. -/
def nameLimit : Nat := 255

/-- The bytes that a whole path may have. -/
def pathLimit : Nat := 4095

def demandDirectory (w : Workspace) (place : Place) : Except IoFault Unit :=
  match w.entry? place with
  | some .directory => .ok ()
  | some _ => .error .notADirectory
  | none => .error .notFound

/-- Steps from a directory to a name in it. The root is above itself. -/
def step (w : Workspace) (here : Place) (name : String) : Except IoFault Place := do
  w.demandDirectory here
  if name == "." then return here
  else if name == ".." then return here.dropLast
  else if nameLimit < name.utf8ByteSize then throw .nameTooLong
  else return here ++ [name]

def walk (w : Workspace) (r : Route) : Except IoFault Place :=
  r.names.foldlM w.step (if r.absolute then [] else w.home)

/-- The route of a path that the machine looks at. -/
def routeOf (path : String) : Except IoFault Route :=
  if path.isEmpty then .error .notFound
  else if pathLimit < path.utf8ByteSize then .error .nameTooLong
  else .ok (.ofText path)

/-- The directory where something is to be created, and its name; a route that ends in no name of
its own leads to a directory that is there. -/
def site (w : Workspace) (r : Route) : Except IoFault (Place × Option String) := do
  let here ← w.walk { r with names := r.names.dropLast }
  w.demandDirectory here
  return (here, r.names.getLast?.filter (! Route.isDots ·))

def isDirectory (w : Workspace) (r : Route) : Bool :=
  match w.walk r with
  | .ok place => w.entry? place = some .directory
  | .error _ => false

/-! ## Files -/

def read (w : Workspace) (path : String) : Except IoFault (List UInt8) := do
  let r ← routeOf path
  match w.entry? (← w.walk r) with
  | some .directory => throw .isADirectory
  | none => throw .notFound
  | some e =>
    if r.asksDirectory then throw .notADirectory
    else match e with
      | .file bytes => return bytes
      | _ => return []

def write (w : Workspace) (path : String) (bytes : List UInt8) : Except IoFault Workspace := do
  let r ← routeOf path
  match ← w.site r with
  | (_, none) => throw .isADirectory
  | (here, some name) =>
    if r.asksDirectory then throw .isADirectory
    let place ← w.step here name
    match w.entry? place with
    | some .directory => throw .isADirectory
    | some .void => return w
    | _ => return w.put place (.file bytes)

def remove (w : Workspace) (path : String) : Except IoFault Workspace := do
  let r ← routeOf path
  let place ← w.walk r
  match w.entry? place with
  | some .directory => throw .isADirectory
  | none => throw .notFound
  | some _ => if r.asksDirectory then throw .notADirectory else return w.erase place

def rename (w : Workspace) (source target : String) : Except IoFault Workspace := do
  let bytes ← w.read source
  (← w.remove source).write target bytes

/-! ## Directories -/

def makeDirectory (w : Workspace) (r : Route) : Except IoFault Workspace := do
  match ← w.site r with
  | (_, none) => throw .alreadyExists
  | (here, some name) =>
    let place ← w.step here name
    if (w.entry? place).isSome then throw .alreadyExists
    return w.put place .directory

/-- A directory that is there already is as good as a new one. -/
def ensureDirectory (w : Workspace) (r : Route) : Except IoFault Workspace :=
  match w.makeDirectory r with
  | .ok w => .ok w
  | .error e => if w.isDirectory r then .ok w else .error e

/-- Creates a directory, and where one above it is missing that one first. What has been created
stays also if a later one cannot be. -/
def ensureAlong (w : Workspace) (r : Route) : List Route → Except IoFault Unit × Workspace
  | [] => finish w
  | next :: rest =>
    match w.ensureDirectory r with
    | .ok w => (.ok (), w)
    | .error .notFound =>
      match ensureAlong w next rest with
      | (.ok (), w) => finish w
      | failed => failed
    | .error e => (.error e, w)
where
  finish (w : Workspace) : Except IoFault Unit × Workspace :=
    match w.ensureDirectory r with
    | .ok w => (.ok (), w)
    | .error e => (.error e, w)

/-- The empty path stands for the working directory here. -/
def makeDirectories (w : Workspace) (path : String) : Except IoFault Unit × Workspace :=
  if path.isEmpty then (.ok (), w)
  else match routeOf path with
    | .ok r => w.ensureAlong r r.above
    | .error e => (.error e, w)

/-! ## The machine -/

/-- A change that leaves everything as it was if it fails. -/
def change (f : Workspace → Except IoFault Workspace) : StateM Workspace (Except IoFault Unit) :=
  fun w => match f w with
    | .ok w => (.ok (), w)
    | .error e => (.error e, w)

instance : Host (StateM Workspace) where
  read path := fun w => (w.read path, w)
  write path bytes := change (·.write path bytes)
  makeDirectories path := fun w => w.makeDirectories path
  rename source target := change (·.rename source target)
  remove path := change (·.remove path)
  print s := modify fun w => { w with printed := w.printed ++ s }
  report s := modify fun w => { w with reported := w.reported ++ s }

end Workspace
end HardwareLinker
