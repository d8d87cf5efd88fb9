import HardwareLinker.Json.Basic
import HardwareLinker.Tree.Basic

/-!
The report on a merge tree that wrapper generation reads: every node in pre-order with its open
interface and its links, and the ends that stay open at the root.
-/

namespace HardwareLinker.MergeTree

/-- Open ends by direction and family. -/
structure Arity where
  inChannels : Nat
  outChannels : Nat
  inChains : Nat
  outChains : Nat
deriving DecidableEq, Repr

variable {α : Type}

namespace Arity

def of (ports : List (Port α)) : Arity :=
  let count (chain source : Bool) := ports.countP fun p =>
    p.connection.kind.isChain == chain && p.connection.kind.isSource == source
  ⟨count false false, count false true, count true false, count true true⟩

def total (a : Arity) : Nat := a.inChannels + a.outChannels + a.inChains + a.outChains

def json (a : Arity) : Json :=
  .object [("in_channels", .natural a.inChannels), ("out_channels", .natural a.outChannels),
    ("in_chains", .natural a.inChains), ("out_chains", .natural a.outChains)]

end Arity

def linkJson (l : Link) : Json :=
  .object [("kind", .string l.family.text), ("name", .string l.name), ("from", .string l.source),
    ("to", .string l.sink), ("from_module", .string l.sourceModule),
    ("to_module", .string l.sinkModule), ("buffered", .bool l.buffered)]

def artifactsJson (artifacts : NameMap (List String)) : Json :=
  .object (artifacts.entries.map fun (kind, paths) => (kind, .strings paths))

def nodeJson (g : Graph α) (l : Located α) : Json :=
  let t := l.node
  let artifacts := (t.moduleName?.bind g.module?).map (·.artifacts)
  .object [("name", .string t.name), ("path", .string l.pathText),
    ("children", .strings (t.children.map (·.name))), ("module", .option .string t.moduleName?),
    ("placeholder", .bool t.isPlaceholder), ("boundary", .bool t.isBoundary),
    ("exported_rule_count", .natural t.exported), ("arity", (Arity.of t.interface.ports).json),
    ("links", .array (t.links.map linkJson)), ("artifacts", artifactsJson (artifacts.getD .empty))]

def residualJson (g : Graph α) (p : Port α) : Json :=
  let c := p.connection
  .object [("name", .string c.name), ("kind", .string c.kind.text), ("raw_type", .string c.type),
    ("bitwidth", .natural c.width),
    ("module", .string (((g.connection? p.origin).map (·.owner)).getD "")),
    ("optional", .bool c.optional)]

def report (t : MergeTree α) (g : Graph α) : Json :=
  .object [("root", .string t.name), ("depth", .natural t.depth),
    ("nodes", .array (t.located.map (nodeJson g))),
    ("residual", .array (t.residual.map (residualJson g)))]

end HardwareLinker.MergeTree
