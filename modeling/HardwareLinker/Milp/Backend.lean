import HardwareLinker.Milp.BranchAndBound
import HardwareLinker.Milp.LpText
import HardwareLinker.Milp.SolutionText
import HardwareLinker.Settings

/-!
The solvers that a configuration can name: one in process, and two programs that read a model file
and write a solution file.
-/

namespace HardwareLinker.Milp

namespace Builtin

def name : String := "microlp"

def unboundedText : String :=
  "Unbounded: The objective can be made infinitely large without violating any constraints."

/-- A limit of no time is always exceeded. -/
def solve (limitMillis : Nat) (m : Model Binary64) : Except Failure (Assignment Binary64) :=
  if limitMillis = 0 then
    let seconds := Decimal.fixed 3 (.ofNat limitMillis / .ofNat 1000)
    .error (.failed (name ++ " exceeded the " ++ seconds ++ "s time limit"))
  else
    match (ExactModel.ofModel m).solve with
    | .infeasible => .error (.infeasible (name ++ ": infeasible"))
    | .unbounded => .error (.failed (name ++ ": " ++ unboundedText))
    | .optimal values => .ok (values.map Decimal.ofRat)

end Builtin

/-- A program that solves models. -/
inductive Program where
  | cbc
  | glpk
deriving DecidableEq, Repr

namespace Program

def name : Program → String
  | cbc => "cbc"
  | glpk => "glpk"

/-- The executable looked for unless another one is given. -/
def executable : Program → String
  | cbc => "cbc"
  | glpk => "glpsol"

/-- The arguments for a model file, a solution file and a limit of at least one second. -/
def arguments (p : Program) (limitSeconds : Nat) (model solution : String) : List String :=
  let seconds := toString (Nat.max limitSeconds 1)
  match p with
  | cbc => [model, "sec", seconds, "solve", "solu", solution]
  | glpk => ["--lp", model, "--tmlim", seconds, "-w", solution]

def readSolution (p : Program) (m : Model Binary64) (text : String) :
    Except Failure (Assignment Binary64) :=
  match (match p with
    | cbc => Cbc.read m text
    | glpk => Glpk.read m text) with
  | .ok a => .ok a
  | .error f => .error f.failure

end Program

/-- What came of running a program: it did not start, or it ended with a code and its solution file
was read or not. -/
inductive ProgramRun where
  | notStarted (reason : String)
  | ended (code : Nat) (solution : Except String String)

/-- Runs a program by way of `launch`, which gets its arguments' model text. -/
def Program.solve (p : Program) (executable : String) (launch : String → ProgramRun)
    (m : Model Binary64) : Except Failure (Assignment Binary64) :=
  match launch m.toLp with
  | .notStarted reason => .error (.failed s!"cannot start `{executable}`: {reason}")
  | .ended code solution =>
    if code ≠ 0 then .error (.failed s!"`{executable}` exited with exit status: {code}")
    else
      match solution with
      | .error reason => .error (.io reason)
      | .ok text => p.readSolution m text

/-- The name of the solver that a backend stands for. -/
def backendName : Backend → String
  | .builtin => Builtin.name
  | .cbc => Program.cbc.name
  | .glpk => Program.glpk.name

/-- The solver of the placement settings; `launch` runs the external ones. -/
def solverOf (settings : PlacementSettings Binary64) (launch : Program → String → ProgramRun) :
    Solver Binary64 := fun _ m =>
  match settings.backend with
  | .builtin => Builtin.solve (settings.timeLimit * 1000) m
  | .cbc => Program.cbc.solve Program.cbc.executable (launch .cbc) m
  | .glpk => Program.glpk.solve Program.glpk.executable (launch .glpk) m

end HardwareLinker.Milp
