import HardwareLinker.Settings.Fields
import HardwareLinker.Toml.Reader

/-!
Settings from the text of a configuration file. Values out of range are refused; of several, the
fault of the first in the order of the checks is told.
-/

namespace HardwareLinker.Settings

/-- Why a configuration cannot be used. -/
inductive Fault where
  | unreadable (path reason : String)
  /-- Not a document of the format, an unknown key, or a value of the wrong kind. -/
  | malformed
  | outOfRange (key reason : String)
deriving DecidableEq, Repr

def Fault.message : Fault → String
  | unreadable path reason => "cannot read " ++ path ++ ": " ++ reason
  | malformed => "malformed configuration"
  | outOfRange key reason => "bad value for `" ++ key ++ "`: " ++ reason

variable {α : Type} [Scalar α]

/-- The checks of a configuration in their order: what has to hold, of which key, and how a failure
is told. -/
def checks (s : Settings α) : List (Bool × String × String) :=
  [(0 < s.tree.ruleThreshold, "treecut.rule_threshold", "must be at least 1"),
    (!s.placement.aspectRatios.isEmpty && s.placement.aspectRatios.all (0 < ·),
      "placement.aspect_ratios", "needs at least one positive ratio"),
    (!s.placement.batchSizes.isEmpty && !s.placement.batchSizes.contains 0,
      "placement.batch_sizes", "needs at least one size and no zeros"),
    (0 ≤ s.placement.areaReuseTolerance,
      "placement.area_reuse_tolerance", "must not be negative"),
    (0 < s.placement.timeLimit, "placement.time_limit_secs", "must be at least 1"),
    (0 < s.placement.bufferDistance, "placement.buffer_distance", "must be positive"),
    (0 < s.tour.cooling && s.tour.cooling < 1,
      "tour.alpha", "must lie strictly between 0 and 1"),
    (0 < s.tour.initialTemperature, "tour.initial_temperature", "must be positive")]

def fault? (s : Settings α) : Option Fault :=
  s.checks.findSome? fun (holds, key, reason) =>
    if holds then none else some (.outOfRange key reason)

def ofText (text : String) : Except Fault (Settings α) :=
  match Toml.ofText? text >>= ofToml? with
  | none => .error .malformed
  | some s =>
    match s.fault? with
    | some f => .error f
    | none => .ok s

/-- The name under which a configuration is looked up in a directory. -/
def fileName : String := "lim.toml"

/-- Settings from the bytes of a file, which have to be a UTF-8 text. -/
def ofFile (path : String) (bytes : List UInt8) : Except Fault (Settings α) :=
  match String.fromUTF8? (ByteArray.mk bytes.toArray) with
  | some text => ofText text
  | none => .error (.unreadable path "stream did not contain valid UTF-8")

end HardwareLinker.Settings
