import HardwareLinker.Milp.Model

/-!
Linear programs over the rationals, solved by the simplex method in two phases. Columns enter by
least index, so no basis comes back and the number of bases bounds the number of steps.
-/

namespace HardwareLinker.Milp

/-- Columns are not negative; the objective is minimised. -/
structure LinearProgram where
  columns : Nat
  rows : List (Array Rat × Sense × Rat)
  costs : Array Rat

/-- An outcome of optimisation. -/
inductive Optimum (β : Type) where
  | infeasible
  | unbounded
  | optimal (b : β)

/-- A basis with its equations. The last cell of a row is its right-hand side. -/
structure Tableau where
  rows : Array (Array Rat)
  basis : Array Nat
  /-- Reduced costs; the last cell is the objective value, negated. -/
  costs : Array Rat

namespace Tableau

/-- Takes a multiple of one row from another one. -/
def eliminate (target source : Array Rat) (k : Rat) : Array Rat :=
  if k = 0 then target else target.mapIdx fun i x => x - k * source.getD i 0

/-- The column enters the basis in place of the row. -/
def pivot (t : Tableau) (row column : Nat) : Tableau :=
  let source := t.rows.getD row #[]
  let p := source.getD column 1
  let scaled := source.map (· / p)
  { rows := t.rows.mapIdx fun i r =>
      if i = row then scaled else eliminate r scaled (r.getD column 0)
    basis := t.basis.setIfInBounds row column
    costs := eliminate t.costs scaled (t.costs.getD column 0) }

/-- The right-hand side of a row. -/
def rhs (r : Array Rat) : Rat := r.getD (r.size - 1) 0

/-- The row that limits a column most; of equal ones that with the least basic column. -/
def leaving? (t : Tableau) (column : Nat) : Option Nat :=
  let ratios := (t.rows.toList.zip t.basis.toList).zipIdx.filterMap fun ((r, b), i) =>
    let a := r.getD column 0
    if 0 < a then some (rhs r / a, b, i) else none
  (ratios.foldl (fun best c => match best with
    | none => some c
    | some m => if c.1 < m.1 || (c.1 == m.1 && c.2.1 < m.2.1) then some c else some m) none).map
    (·.2.2)

/-- Lowers the costs until none of the first `allowed` columns helps; false if there is no end. -/
def minimise (allowed : Nat) : Nat → Tableau → Tableau × Bool
  | 0, t => (t, true)
  | fuel + 1, t =>
    match (List.range allowed).find? fun j => t.costs.getD j 0 < 0 with
    | none => (t, true)
    | some column =>
      match t.leaving? column with
      | none => (t, false)
      | some row => minimise allowed fuel (t.pivot row column)

/-- The value of a column. -/
def value (t : Tableau) (column : Nat) : Rat :=
  match t.basis.findIdx? (· == column) with
  | some row => rhs (t.rows.getD row #[])
  | none => 0

/-- Brings the costs of the basic columns to zero. -/
def priceOut (t : Tableau) (costs : Array Rat) : Tableau :=
  { t with costs := (t.rows.toList.zip t.basis.toList).foldl (fun costs (r, b) =>
      eliminate costs r (costs.getD b 0)) costs }

/-- Takes helper columns out of the basis where another column can stand in. -/
def dropHelpers (t : Tableau) (helpers : Nat) : Tableau :=
  (List.range t.rows.size).foldl (fun t row =>
    if t.basis.getD row 0 < helpers then t
    else
      let r := t.rows.getD row #[]
      match (List.range helpers).find? fun j => r.getD j 0 != 0 with
      | some column => t.pivot row column
      | none => t) t

end Tableau

namespace LinearProgram

/-- With every right-hand side not negative. -/
def normalised (p : LinearProgram) : List (Array Rat × Sense × Rat) :=
  p.rows.map fun (r, sense, b) =>
    if b < 0 then
      (r.map (-·), match sense with
        | .atMost => .atLeast
        | .atLeast => .atMost
        | .equal => .equal, -b)
    else (r, sense, b)

/-- The first tableau: the columns of the program, one slack a row, one helper a row, and the
right-hand side. A row starts with its slack where that is a basis, with its helper otherwise. -/
def start (p : LinearProgram) : Tableau :=
  let rows := p.normalised
  let n := p.columns
  let m := rows.length
  let row (e : (Array Rat × Sense × Rat) × Nat) : Array Rat :=
    let ((r, sense, b), i) := e
    let slack : Rat := match sense with
      | .atMost => 1
      | .atLeast => -1
      | .equal => 0
    let cells := (Array.replicate (n + 2 * m + 1) 0).mapIdx fun j x =>
      if j < n then r.getD j 0 else x
    let cells := cells.setIfInBounds (n + i) slack
    let cells := cells.setIfInBounds (n + m + i) (if sense = .atMost then 0 else 1)
    cells.setIfInBounds (n + 2 * m) b
  { rows := (rows.zipIdx.map row).toArray
    basis := (rows.zipIdx.map fun ((_, sense, _), i) =>
      if sense = .atMost then n + i else n + m + i).toArray
    costs := #[] }

/-- An optimal value of each column, with the cost. -/
def solve (p : LinearProgram) : Optimum (Rat × Array Rat) :=
  let n := p.columns
  let m := p.rows.length
  let width := n + 2 * m + 1
  let fuel := Nat.pow 2 (n + 2 * m)
  let helperCosts := (Array.replicate width (0 : Rat)).mapIdx fun j _ =>
    if n + m ≤ j ∧ j < n + 2 * m then 1 else 0
  let (t, _) := (p.start.priceOut helperCosts).minimise (n + m) fuel
  if Tableau.rhs t.costs < 0 then .infeasible
  else
    let costs := (Array.replicate width (0 : Rat)).mapIdx fun j _ => p.costs.getD j 0
    let (t, bounded) := ((t.dropHelpers (n + m)).priceOut costs).minimise (n + m) fuel
    if bounded then
      .optimal (-Tableau.rhs t.costs, (Array.range n).map t.value)
    else .unbounded

end LinearProgram
end HardwareLinker.Milp
