import HardwareLinker.Settings
import HardwareLinker.Toml.Basic

/-!
Settings from the values of a configuration. A section is a table or, with its values in the order
of its keys, an array; what it leaves out keeps its default. A key that the section does not have,
and a value of the wrong kind, are refused.
-/

namespace HardwareLinker

namespace Toml

/-- The values of a section by key. Values of an array beyond the last key are ignored. -/
def fields? (keys : List String) : Toml → Option Table
  | table _ members => if members.all (keys.contains ·.1) then some members else none
  | array items => some (keys.zip items)
  | tables items => some (keys.zip (items.map (table .header)))
  | _ => none

def Table.field {β : Type} (t : Table) (k : String) (read : Toml → Option β) (default : β) :
    Option β :=
  match t.lookup k with
  | some v => read v
  | none => some default

def Table.required {β : Type} (t : Table) (k : String) (read : Toml → Option β) : Option β :=
  t.lookup k >>= read

def bool? : Toml → Option Bool
  | bool b => some b
  | _ => none

def string? : Toml → Option String
  | string s => some s
  | _ => none

def natural? : Toml → Option Nat
  | integer n => if 0 ≤ n then some n.toNat else none
  | _ => none

def scalar? {α : Type} [Scalar α] : Toml → Option α
  | integer n => Scalar.ofNumeral? (.finite (n < 0) n.natAbs 0)
  | real n => Scalar.ofNumeral? n
  | _ => none

def list? {β : Type} (read : Toml → Option β) : Toml → Option (List β)
  | array items => items.mapM read
  | tables items => items.mapM fun m => read (table .header m)
  | _ => none

def isHollow : Toml → Bool
  | array items => items.isEmpty
  | table _ members => members.isEmpty
  | tables items => items.isEmpty
  | _ => false

/-- One of several words: a string, or a table that gives the word an empty value. -/
def choice? {β : Type} (choices : List (String × β)) : Toml → Option β
  | string s => choices.lookup s
  | table _ [(s, v)] => if v.isHollow then choices.lookup s else none
  | _ => none

end Toml

open Toml

namespace Settings

def graphOfToml? (v : Toml) : Option GraphSettings := do
  let d : GraphSettings := {}
  let t ← v.fields? ["allow_unmatched", "trim_optional"]
  let allowUnmatched ← t.field "allow_unmatched" bool? d.allowUnmatched
  let trimOptional ← t.field "trim_optional" bool? d.trimOptional
  return { allowUnmatched, trimOptional }

def treeOfToml? (v : Toml) : Option TreeSettings := do
  let d : TreeSettings := {}
  let t ← v.fields? ["rule_threshold", "use_placement"]
  let ruleThreshold ← t.field "rule_threshold" natural? d.ruleThreshold
  let usePlacement ← t.field "use_placement" bool? d.usePlacement
  return { ruleThreshold, usePlacement }

def ruleOfToml? (v : Toml) : Option PlacementRule := do
  let t ← v.fields? ["group", "anchor", "side"]
  let group ← t.required "group" string?
  let anchor ← t.required "anchor" string?
  let side ← t.required "side" (choice? [("left", .left), ("right", .right), ("above", .above),
    ("below", .below)])
  return { group, anchor, side }

variable {α : Type} [Scalar α]

def placementKeys : List String :=
  ["aspect_ratios", "area_reuse_tolerance", "batch_sizes", "parent_child_weight", "comm_weight",
    "buffer_distance", "solver", "time_limit_secs", "rules"]

def placementOfToml? (v : Toml) : Option (PlacementSettings α) := do
  let d : PlacementSettings α := {}
  let t ← v.fields? placementKeys
  let aspectRatios ← t.field "aspect_ratios" (list? scalar?) d.aspectRatios
  let areaReuseTolerance ← t.field "area_reuse_tolerance" scalar? d.areaReuseTolerance
  let batchSizes ← t.field "batch_sizes" (list? natural?) d.batchSizes
  let parentChildWeight ← t.field "parent_child_weight" scalar? d.parentChildWeight
  let trafficWeight ← t.field "comm_weight" scalar? d.trafficWeight
  let bufferDistance ← t.field "buffer_distance" scalar? d.bufferDistance
  let backend ← t.field "solver" (choice? [("builtin", .builtin), ("cbc", .cbc), ("glpk", .glpk)])
    d.backend
  let timeLimit ← t.field "time_limit_secs" natural? d.timeLimit
  let rules ← t.field "rules" (list? ruleOfToml?) d.rules
  return { aspectRatios, areaReuseTolerance, batchSizes, parentChildWeight, trafficWeight,
           bufferDistance, backend, timeLimit, rules }

def tourOfToml? (v : Toml) : Option (TourSettings α) := do
  let d : TourSettings α := {}
  let t ← v.fields? ["initial_temperature", "alpha", "max_evaluations", "seed"]
  let initialTemperature ← t.field "initial_temperature" scalar? d.initialTemperature
  let cooling ← t.field "alpha" scalar? d.cooling
  let maxEvaluations ← t.field "max_evaluations" natural? d.maxEvaluations
  let seed ← t.field "seed" natural? d.seed
  return { initialTemperature, cooling, maxEvaluations, seed }

def ofToml? (v : Toml) : Option (Settings α) := do
  let t ← v.fields? ["graph", "treecut", "placement", "tour"]
  let graph ← t.field "graph" graphOfToml? {}
  let tree ← t.field "treecut" treeOfToml? {}
  let placement ← t.field "placement" placementOfToml? {}
  let tour ← t.field "tour" tourOfToml? {}
  return { graph, tree, placement, tour }

end Settings
end HardwareLinker
