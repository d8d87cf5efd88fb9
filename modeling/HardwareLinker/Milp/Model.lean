import HardwareLinker.Scalar

/-!
Mixed integer linear models: continuous and binary variables, rows, and an objective to be
minimised. Variables are known by position.
-/

namespace HardwareLinker.Milp

structure Variable (α : Type) where
  name : String
  /-- Only zero and one are allowed. -/
  binary : Bool
  lower : α
  /-- Nothing where there is no upper bound. -/
  upper : Option α

inductive Sense where
  | atMost
  | atLeast
  | equal
deriving DecidableEq, Repr

/-- A sum of multiples of variables. -/
abbrev Terms (α : Type) := List (Nat × α)

structure Row (α : Type) where
  name : String
  terms : Terms α
  sense : Sense
  bound : α

structure Model (α : Type) where
  vars : Array (Variable α)
  rows : List (Row α)
  objective : Terms α

/-- A value for each variable; zero for those left out. -/
abbrev Assignment (α : Type) := Array α

/-- Why a solver gives no optimal assignment. -/
inductive Failure where
  | infeasible (reason : String)
  | failed (reason : String)
  | io (reason : String)
deriving DecidableEq, Repr

def Failure.message : Failure → String
  | infeasible reason => "placement infeasible: " ++ reason
  | failed reason => "solver failure: " ++ reason
  | io reason => "I/O error: " ++ reason

/-- A solver may answer anything; it sees how many models it was asked before. -/
abbrev Solver (α : Type) := Nat → Model α → Except Failure (Assignment α)

variable {α : Type} [Scalar α]

def Assignment.value (a : Assignment α) (v : Nat) : α := Array.getD a v 0

def Terms.eval (t : Terms α) (a : Assignment α) : α :=
  Scalar.sum (t.map fun (v, c) => c * a.value v)

namespace Row

/-- How far an assignment misses the bound; not positive if it does not. -/
def gap (r : Row α) (a : Assignment α) : α :=
  let value := r.terms.eval a
  match r.sense with
  | .atMost => value - r.bound
  | .atLeast => r.bound - value
  | .equal => Scalar.abs (value - r.bound)

end Row

namespace Model

def empty : Model α := ⟨#[], [], []⟩

def indexOf? (m : Model α) (name : String) : Option Nat := m.vars.findIdx? (·.name == name)

def objectiveValue (m : Model α) (a : Assignment α) : α := m.objective.eval a

/-- How far the value of a variable misses its bounds. -/
def boundGaps (v : Variable α) (x : α) : List α :=
  (v.lower - x) :: (match v.upper with
    | some upper => [x - upper]
    | none => [])

/-- The greatest distance by which a bound or a row is missed, zero if none is. -/
def violation (m : Model α) (a : Assignment α) : α :=
  let bounds := m.vars.toList.zipIdx.flatMap fun (v, i) => boundGaps v (a.value i)
  (bounds ++ m.rows.map (·.gap a)).foldl Scalar.greater 0

end Model
end HardwareLinker.Milp
