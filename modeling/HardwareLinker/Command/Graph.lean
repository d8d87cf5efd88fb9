import HardwareLinker.Command.Session
import HardwareLinker.Graph.Dot

/-!
The command `graph`: assembles the module graph of some logs and reviews it.
-/

namespace HardwareLinker.Command

variable {m : Type → Type} [Monad m] [Host m]

def draw (g : Graph Binary64) : Option String → Action m Unit
  | none => return
  | some path => if path == "-" then print (g.toDot ++ "\n") else writeText path g.toDot

def linkedLine (g : Graph Binary64) : String :=
  s!"Linked {g.modules.size} module(s), {g.edges.length} edge(s), {g.unmatched.length} unmatched"

def graph (s : Surroundings) (globals : Globals) (a : GraphArguments) : Action m Nat := do
  let settings ← settings globals
  match ← loadGraph .empty a.logs with
  | .error d => finish s globals [d]
  | .ok g =>
    let r := review settings.graph a.allowUnmatched g
    progress globals (linkedLine r.graph)
    draw r.graph a.drawing
    let code ← finish s globals r.reports
    return if r.accepted then code else 1

end HardwareLinker.Command
