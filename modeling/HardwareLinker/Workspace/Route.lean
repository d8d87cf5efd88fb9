/-!
Paths as the names along them. What a path leads to is decided name by name, in a tree of files.
-/

namespace HardwareLinker

structure Route where
  /-- Starts at the root, not at the working directory. -/
  absolute : Bool
  names : List String
  /-- A slash at the end asks for a directory. -/
  asksDirectory : Bool := false
deriving DecidableEq, Repr

namespace Route

/-- Several slashes in a row are one. -/
def ofText (path : String) : Route :=
  { absolute := path.startsWith "/"
    names := ((path.toList.splitOn '/').map String.ofList).filter (! ·.isEmpty)
    asksDirectory := path.endsWith "/" }

/-- Names that stand for a directory itself or the one above it. -/
def isDots (name : String) : Bool := name == "." || name == ".."

/-- The directories from the root or the working directory down to what the route leads through, the
nearest to its end first. -/
def above (r : Route) : List Route :=
  let rec shorten : List String → List Route
    | [] => []
    | name :: rest => { absolute := r.absolute, names := (name :: rest).reverse } :: shorten rest
  shorten ((r.names.filter (· != ".")).dropLast.reverse)

end Route
end HardwareLinker
