import HardwareLinker.Decimal.Exact
import HardwareLinker.Milp.Simplex

/-!
Mixed integer models solved exactly: relaxations are linear programs over the rationals, and a
binary that comes out between zero and one is fixed to either. A relaxation that is no better than
the best assignment found so far is not followed. A row with an infinite right-hand side holds
always or never.
-/

namespace HardwareLinker.Milp

/-- A model in exact numbers: rows, costs, and for each variable whether it is binary and its
bounds, where there are any. -/
structure ExactModel where
  vars : Array (Bool × Option Rat × Option Rat)
  rows : List (Terms Rat × Sense × Rat)
  costs : Terms Rat

namespace ExactModel

def exactTerm? (t : Nat × Binary64) : Option (Nat × Rat) :=
  (Decimal.toRat? t.2).map fun c => (t.1, c)

/-- No value is at most the one infinity, at least the other one, or equal to either. -/
def excludesAll (sense : Sense) (bound : Binary64) : Bool :=
  bound.isInfinite && match sense with
    | .atMost => bound.isNegative
    | .atLeast => !bound.isNegative
    | .equal => true

/-- The row that no assignment satisfies. -/
def impossible : Terms Rat × Sense × Rat := ([], .atMost, -1)

/-- A row in exact numbers. One that every assignment satisfies, or that says nothing about numbers,
is left out. -/
def exactRow? (r : Row Binary64) : Option (Terms Rat × Sense × Rat) :=
  if excludesAll r.sense r.bound then some impossible
  else do return (← r.terms.mapM exactTerm?, r.sense, ← Decimal.toRat? r.bound)

/-- A bound that is not finite is none. -/
def ofModel (m : Model Binary64) : ExactModel where
  vars := m.vars.map fun v =>
    (v.binary, Decimal.toRat? v.lower, v.upper.bind Decimal.toRat?)
  rows := m.rows.filterMap exactRow?
  costs := m.objective.filterMap exactTerm?

/-- How a variable is made of columns: a constant, and columns with their signs. -/
structure Shape where
  offset : Rat
  columns : List (Nat × Rat)

/-- The columns of each variable: none if it is fixed, one above a lower bound, two if it has
none. -/
def shapes (m : ExactModel) : Nat × Array Shape :=
  m.vars.foldl (fun (next, shapes) (_, lower, upper) =>
    match lower with
    | some l =>
      if upper == some l then (next, shapes.push ⟨l, []⟩)
      else (next + 1, shapes.push ⟨l, [(next, 1)]⟩)
    | none => (next + 2, shapes.push ⟨0, [(next, 1), (next + 1, -1)]⟩)) (0, #[])

/-- Terms over variables as a row over columns, with the constant that comes out. -/
def overColumns (columns : Nat) (shapes : Array Shape) (t : Terms Rat) : Array Rat × Rat :=
  t.foldl (fun (row, constant) (v, c) =>
    match shapes[v]? with
    | some s =>
      (s.columns.foldl (fun row (j, sign) => row.modify j (· + c * sign)) row,
        constant + c * s.offset)
    | none => (row, constant)) (Array.replicate columns 0, 0)

/-- The linear program without the condition that binaries are whole, and its variables' shapes. -/
def relaxation (m : ExactModel) : LinearProgram × Array Shape × Rat :=
  let (columns, shapes) := m.shapes
  let rows := m.rows.map fun (t, sense, b) =>
    let (row, constant) := overColumns columns shapes t
    (row, sense, b - constant)
  let uppers := m.vars.toList.zipIdx.filterMap fun ((_, lower, upper), v) =>
    if lower == upper then none
    else upper.map fun u =>
      let (row, constant) := overColumns columns shapes [(v, 1)]
      (row, Sense.atMost, u - constant)
  let (costs, constant) := overColumns columns shapes m.costs
  (⟨columns, rows ++ uppers, costs⟩, shapes, constant)

/-- An optimal assignment of the relaxation with its cost. -/
def solveRelaxed (m : ExactModel) : Optimum (Rat × Array Rat) :=
  let (program, shapes, constant) := m.relaxation
  match program.solve with
  | .infeasible => .infeasible
  | .unbounded => .unbounded
  | .optimal (cost, columns) =>
    .optimal (cost + constant, shapes.map fun s =>
      s.columns.foldl (fun x (j, sign) => x + sign * columns.getD j 0) s.offset)

/-- The first binary that is neither zero nor one. -/
def fractional? (m : ExactModel) (values : Array Rat) : Option Nat :=
  (m.vars.toList.zip values.toList).findIdx? fun ((binary, _, _), x) =>
    binary && x != 0 && x != 1

def fix (m : ExactModel) (v : Nat) (x : Rat) : ExactModel :=
  { m with vars := m.vars.modify v fun _ => (true, some x, some x) }

/-- Follows at most as many fixings as there are binaries. -/
def branch : Nat → ExactModel → Option (Rat × Array Rat) → Optimum (Option (Rat × Array Rat))
  | 0, _, best => .optimal best
  | depth + 1, m, best =>
    match m.solveRelaxed with
    | .infeasible => .optimal best
    | .unbounded => .unbounded
    | .optimal (cost, values) =>
      if best.any fun b => b.1 ≤ cost then .optimal best
      else
        match m.fractional? values with
        | none => .optimal (some (cost, values))
        | some v =>
          let near : Rat := if values.getD v 0 * 2 < 1 then 0 else 1
          match branch depth (m.fix v near) best with
          | .optimal best => branch depth (m.fix v (1 - near)) best
          | other => other

/-- The least cost with an assignment that has it, if there is an assignment at all. -/
def best (m : ExactModel) : Optimum (Option (Rat × Array Rat)) :=
  branch (m.vars.toList.countP (·.1) + 1) m none

/-- Where the relaxation has no least cost, the model has none either if it has an assignment at
all; whether it has one is asked without costs. -/
def solve (m : ExactModel) : Optimum (Array Rat) :=
  match m.best with
  | .optimal (some (_, values)) => .optimal values
  | .optimal none => .infeasible
  | .infeasible => .infeasible
  | .unbounded =>
    match { m with costs := [] }.best with
    | .optimal (some _) => .unbounded
    | _ => .infeasible

end ExactModel
end HardwareLinker.Milp
