import HardwareLinker.Floorplan.Basic
import HardwareLinker.Milp.Model

/-!
Why a floorplan cannot be elaborated, modelled or placed.
-/

namespace HardwareLinker.Floorplan

inductive Fault (α : Type) where
  | noChip
  | unknownGroup (name : String)
  /-- No size is offered, or one that is not positive. -/
  | noPositiveSize (name : String) (area : α)
  | noSize (name : String)
  | nonPositiveChoice (name : String) (size : Size α)
  | violation (amount : α)
  | offChip (name : String)
  | overlap (a b : String)
  | solver (failure : Milp.Failure)
  /-- Every batch size failed, the last one for the given reason. -/
  | exhausted (last : Option (Fault α))

namespace Fault

/-- The families of faults that reports tell apart. -/
inductive Family where
  | configuration
  | infeasible
  | solver
  | io
deriving DecidableEq, Repr

def Family.lead : Family → String
  | configuration => "placement configuration error: "
  | infeasible => "placement infeasible: "
  | solver => "solver failure: "
  | io => "I/O error: "

variable {α : Type}

def family : Fault α → Family
  | noChip | unknownGroup _ => .configuration
  | noPositiveSize .. | noSize _ | nonPositiveChoice .. | exhausted _ => .infeasible
  | violation _ | offChip _ | overlap .. => .solver
  | solver (.infeasible _) => .infeasible
  | solver (.failed _) => .solver
  | solver (.io _) => .io

variable [Scalar α]

def message (f : Fault α) : String :=
  f.family.lead ++ match f with
    | noChip => "chip dimension (`DIMENSION FPGA`) is not declared"
    | unknownGroup name => s!"unknown group `{name}`"
    | noPositiveSize name area =>
      s!"group `{name}` has no positive dimension (area " ++ Scalar.text area ++ ")"
    | noSize name => s!"group `{name}` has no size"
    | nonPositiveChoice name size =>
      s!"group `{name}` selected a non-positive dimension " ++ Scalar.text size.width ++ "x"
        ++ Scalar.text size.height
    | violation amount => "solution violates the model by " ++ Scalar.text amount
    | offChip name => s!"group `{name}` leaves the chip"
    | overlap a b => s!"groups `{a}` and `{b}` overlap"
    | solver (.infeasible reason) | solver (.failed reason) | solver (.io reason) => reason
    | exhausted none => "every batch size failed; last failure: no batch size configured"
    | exhausted (some last) => "every batch size failed; last failure: " ++ last.message

end Fault
end HardwareLinker.Floorplan
