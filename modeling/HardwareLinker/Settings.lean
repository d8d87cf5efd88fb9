import HardwareLinker.Scalar

/-!
The settings of every command, with the values that hold where a configuration says nothing.
-/

namespace HardwareLinker

/-- Which solver places the groups. -/
inductive Backend where
  | builtin
  | cbc
  | glpk
deriving DecidableEq, Repr

/-- The side of an anchor that a ruled group is placed on. -/
inductive Side where
  | left
  | right
  | above
  | below
deriving DecidableEq, Repr

/-- A group to be placed flush against an anchor before the solver runs. -/
structure PlacementRule where
  group : String
  anchor : String
  side : Side
deriving DecidableEq, Repr

structure GraphSettings where
  /-- Required ends without a partner are warnings. -/
  allowUnmatched : Bool := false
  /-- Optional ends without a partner leave the interfaces. -/
  trimOptional : Bool := true
deriving DecidableEq, Repr

structure TreeSettings where
  ruleThreshold : Nat := 250
  /-- Cut along the placement when there is one. -/
  usePlacement : Bool := true
deriving DecidableEq, Repr

structure PlacementSettings (α : Type) [Scalar α] where
  /-- Width to height ratios offered for a free group. -/
  aspectRatios : List α := [1, 2.0, 0.5]
  /-- Relative change of area below which the size of an earlier run is kept. -/
  areaReuseTolerance : α := 0.01
  /-- Batch sizes, tried in order. -/
  batchSizes : List Nat := [1, 2, 3]
  parentChildWeight : α := 100.0
  trafficWeight : α := 1
  /-- Distance that one pipeline buffer covers. -/
  bufferDistance : α := 10.0
  backend : Backend := .builtin
  /-- Seconds that the solver may take. -/
  timeLimit : Nat := 60
  rules : List PlacementRule := []

structure TourSettings (α : Type) [Scalar α] where
  initialTemperature : α := 10.0
  /-- Factor applied to the temperature after every evaluation. -/
  cooling : α := 0.99995
  maxEvaluations : Nat := 25000
  seed : Nat := 5489

structure Settings (α : Type) [Scalar α] where
  graph : GraphSettings := {}
  tree : TreeSettings := {}
  placement : PlacementSettings α := {}
  tour : TourSettings α := {}

end HardwareLinker
