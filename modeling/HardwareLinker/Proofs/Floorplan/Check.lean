import Mathlib.Data.List.Pairwise
import HardwareLinker.Floorplan.Solve
import HardwareLinker.Proofs.NameMap
import HardwareLinker.Proofs.Pairs

/-!
The final check. It accepts just the plans whose groups all lie on the chip and overlap only where
they may; every plan that batches have placed has passed it. Where no group is free, because the
file, an earlier run or the rules have placed them all, nothing is checked.
-/

namespace HardwareLinker

namespace AreaGroup

theorem nested_comm {α : Type} (a b : AreaGroup α) : a.nested b = b.nested a := Bool.or_comm ..

variable {α : Type} [Scalar α]

theorem boundsOverlap_comm (p q : Bounds α) : boundsOverlap p q = boundsOverlap q p := by
  unfold boundsOverlap
  rw [Bool.and_comm (decide (p.left < _)), Bool.and_assoc, Bool.and_comm (decide (p.bottom < _)),
    ← Bool.and_assoc]

theorem overlaps_comm (a b : AreaGroup α) : a.overlaps b = b.overlaps a := by
  unfold overlaps
  cases a.bounds? with
  | none => cases b.bounds? <;> rfl
  | some p =>
      cases b.bounds? with
      | none => rfl
      | some q => exact boundsOverlap_comm p q

theorem isPlaced_iff {g : AreaGroup α} : g.isPlaced = true ↔ ∃ b, g.bounds? = some b := by
  unfold isPlaced bounds? centre?
  cases g.x <;> cases g.y <;> cases g.dimension.fixed? <;> simp [bind, Option.bind]

/-- Parent and child may share area, and so may two empty boxes. -/
def mayOverlap (a b : AreaGroup α) : Bool := a.nested b || (a.isEmptyBox && b.isEmptyBox)

/-- The groups share area only if they may. -/
def Apart (a b : AreaGroup α) : Prop := a.mayOverlap b = false → a.overlaps b = false

instance : Std.Symm (@Apart α _) := ⟨fun a b h => by
  unfold Apart mayOverlap at h ⊢
  rwa [nested_comm, Bool.and_comm, overlaps_comm]⟩

end AreaGroup

namespace Floorplan

open AreaGroup

variable {α : Type} [Scalar α] {p q : Floorplan α}

theorem isPlaced_of_contains {g : AreaGroup α} (h : p.contains g = true) : g.isPlaced = true := by
  obtain ⟨b, hb, -⟩ := (Option.any_eq_true ..).mp h
  exact isPlaced_iff.mpr ⟨b, hb⟩

/-- Every group is placed on the chip, and two groups share area only where they may. -/
structure Valid (p : Floorplan α) : Prop where
  placed : ∀ g ∈ p.groups.values, g.isPlaced = true
  inside : ∀ g ∈ p.groups.values, p.contains g = true
  apart : ∀ a ∈ p.groups.entries, ∀ b ∈ p.groups.entries, a.1 ≠ b.1 → a.2.Apart b.2

/-! ### The check -/

theorem pairFault?_eq_none {a b : AreaGroup α} :
    pairFault? a b = none ↔ a.Apart b := by
  unfold pairFault? Apart mayOverlap
  cases a.nested b <;> cases a.isEmptyBox <;> cases b.isEmptyBox <;> simp

theorem firstFault?_eq_none {groups : List (AreaGroup α)} :
    firstFault? p groups = none ↔ (∀ g ∈ groups, p.contains g = true) ∧ groups.Pairwise Apart := by
  induction groups with
  | nil => simp [firstFault?]
  | cons g rest ih =>
      rw [firstFault?, List.forall_mem_cons, List.pairwise_cons]
      by_cases inside : p.contains g = true
      · rw [if_neg (by simp [inside])]
        simp only [Option.orElse_eq_orElse, Option.orElse_eq_or, Option.or_eq_none_iff,
          List.findSome?_eq_none_iff, pairFault?_eq_none, ih]
        tauto
      · rw [if_pos (by simpa using inside)]
        simp [inside]

theorem apart_iff_pairwise : (∀ a ∈ p.groups.entries, ∀ b ∈ p.groups.entries, a.1 ≠ b.1 →
    a.2.Apart b.2) ↔ p.groups.values.Pairwise Apart := by
  have ne_of_lt {a b : String} (h : a < b) : a ≠ b := fun e => String.lt_irrefl _ (e ▸ h)
  rw [NameMap.values, List.pairwise_map]
  constructor
  · intro h
    exact p.groups.ascending.imp_of_mem fun ha hb less => h _ ha _ hb (ne_of_lt less)
  · intro h a ha b hb different
    -- The check looks at each pair once; which of the two comes first makes no difference.
    have : Std.Symm fun a b : String × AreaGroup α => a.2.Apart b.2 :=
      ⟨fun _ _ h => Std.Symm.symm _ _ h⟩
    exact h.forall ha hb fun e => different (congrArg Prod.fst e)

/-- The check accepts just the valid plans. -/
theorem verify_eq_ok : verify p = .ok () ↔ Valid p := by
  have accepted : verify p = .ok () ↔ firstFault? p p.groups.values = none := by
    unfold verify
    cases firstFault? p p.groups.values <;> simp
  rw [accepted, firstFault?_eq_none, ← apart_iff_pairwise]
  constructor
  · intro ⟨inside, apart⟩
    exact ⟨fun g hg => isPlaced_of_contains (inside g hg), inside, apart⟩
  · intro valid
    exact ⟨valid.inside, valid.apart⟩

/-! ### Runs -/

/-- Batches end with a plan only if it has passed the check. -/
theorem verify_of_placeBatches {r : Run α} {batches : List (List String)}
    {asked : List (Milp.Model α)} (h : (r.placeBatches p batches asked).1 = .ok q) :
    verify q = .ok () := by
  induction batches generalizing p asked with
  | nil =>
      obtain ⟨⟨⟩, accepted, rfl⟩ := map_eq_ok h
      exact accepted
  | cons batch rest ih =>
      rw [Run.placeBatches] at h
      split at h
      · cases h
      · exact ih h

/-- No batch size ends with a plan that has not passed the check. -/
theorem verify_of_tryBatchSizes {r : Run α} {order : List String} {sizes : List Nat}
    {last : Option (Fault α)} {asked : List (Milp.Model α)}
    (h : (r.tryBatchSizes p order sizes last asked).1 = .ok q) : verify q = .ok () := by
  induction sizes generalizing last asked with
  | nil => cases h
  | cons size rest ih =>
      rw [Run.tryBatchSizes] at h
      split at h
      · next placed asked' hplaced =>
        cases h
        exact verify_of_placeBatches (congrArg Prod.fst hplaced)
      · exact ih h

theorem solveOrder_isEmpty :
    (solveOrder p).isEmpty = true ↔ ∀ g ∈ p.groups.values, g.isPlaced = true := by
  rw [List.isEmpty_iff, solveOrder, List.map_eq_nil_iff, ← List.length_eq_zero_iff,
    List.length_mergeSort, List.length_eq_zero_iff, List.filter_eq_nil_iff]
  simp

/-- Groups that are listed by descending area already are solved in that order. -/
theorem solveOrder_of_pairwise
    (sorted : (p.groups.values.filter (!·.isPlaced)).Pairwise (solvesBefore · ·)) :
    solveOrder p = (p.groups.values.filter (!·.isPlaced)).map (·.name) := by
  rw [solveOrder, List.mergeSort_of_pairwise sorted]

/-- Of two groups the larger one is solved first. -/
theorem solveOrder_of_swapped {a b : AreaGroup α}
    (listed : p.groups.values.filter (!·.isPlaced) = [a, b]) (larger : solvesBefore a b = false) :
    solveOrder p = [b.name, a.name] := by
  rw [solveOrder, listed]
  simp [List.mergeSort, List.MergeSort.Internal.splitInTwo, larger]

theorem solve_of_free {r : Run α} {prior : Option (NameMap (AreaGroup α))}
    (h : r.solve p prior = .ok q)
    (free : ∃ g ∈ (r.base p prior).groups.values, g.isPlaced = false) : verify q = .ok () := by
  obtain ⟨g, hg, unplaced⟩ := free
  have unfinished : ¬ (solveOrder (r.base p prior)).isEmpty = true := by
    rw [solveOrder_isEmpty]
    intro all
    rw [all g hg] at unplaced
    cases unplaced
  unfold Run.solve Run.solveAsking at h
  rw [if_neg unfinished] at h
  exact verify_of_tryBatchSizes h

theorem solve_of_placed {r : Run α} {prior : Option (NameMap (AreaGroup α))}
    (h : ∀ g ∈ (r.base p prior).groups.values, g.isPlaced = true) :
    r.solve p prior = .ok (r.base p prior) := by
  unfold Run.solve Run.solveAsking
  rw [if_pos (solveOrder_isEmpty.mpr h)]

section BatchSizes

variable {r : Run α} {prior : Option (NameMap (AreaGroup α))} {order : List String} {size : Nat}
  {rest : List Nat} {last : Option (Fault α)} {asked : List (Milp.Model α)}

/-- Where a group is free, the batch sizes are tried in order. -/
theorem solve_of_order (ordered : solveOrder (r.base p prior) = order) (free : order ≠ []) :
    r.solve p prior =
      (r.tryBatchSizes (r.base p prior) order
        (r.settings.batchSizes.filter (0 < ·)) none []).1 := by
  unfold Run.solve Run.solveAsking
  dsimp only
  rw [ordered, if_neg (by simpa using free)]

theorem tryBatchSizes_of_placed
    (placed : (r.placeBatches p (chunks size order) asked).1 = .ok q) :
    (r.tryBatchSizes p order (size :: rest) last asked).1 = .ok q := by
  rw [Run.tryBatchSizes]
  split
  · next done => rwa [done] at placed
  · next failed =>
    rw [failed] at placed
    cases placed

variable (rest last) in
/-- After a batch size that fails, the next one starts from the same plan. -/
theorem tryBatchSizes_of_failed
    (failed : (r.placeBatches p (chunks size order) asked).1.isOk = false) :
    ∃ f, r.tryBatchSizes p order (size :: rest) last asked =
      r.tryBatchSizes p order rest (some f) (r.placeBatches p (chunks size order) asked).2 := by
  cases run : r.placeBatches p (chunks size order) asked with
  | mk outcome after =>
      rw [run] at failed
      cases outcome with
      | ok q => cases failed
      | error f => exact ⟨f, by rw [Run.tryBatchSizes, run]⟩

/-- Where the first batch size ends with a plan, that plan is handed out. -/
theorem solve_of_placeBatches (ordered : solveOrder (r.base p prior) = order) (free : order ≠ [])
    (sizes : r.settings.batchSizes.filter (0 < ·) = size :: rest)
    (placed : (r.placeBatches (r.base p prior) (chunks size order) []).1 = .ok q) :
    r.solve p prior = .ok q := by
  rw [solve_of_order ordered free, sizes, tryBatchSizes_of_placed placed]

end BatchSizes

/-- Whatever the solver answers, a plan with a group that neither the file, nor an earlier run, nor
a rule has placed is handed out only if it is valid. Where there is no such group, the plan is
handed out as it is. -/
theorem Run.solve_valid (r : Run α) (p : Floorplan α) (prior : Option (NameMap (AreaGroup α))) :
    (∀ placed, r.solve p prior = .ok placed →
      (∃ g ∈ (r.base p prior).groups.values, g.isPlaced = false) →
        verify placed = .ok () ∧ placed.Valid) ∧
    ((∀ g ∈ (r.base p prior).groups.values, g.isPlaced = true) →
      r.solve p prior = .ok (r.base p prior)) := by
  refine ⟨fun placed h free => ?_, solve_of_placed⟩
  have accepted := solve_of_free h free
  exact ⟨accepted, verify_eq_ok.mp accepted⟩

/-- A solver that goes through a list of answers. -/
def replaying (answers : List (Milp.Assignment α)) : Run α where
  traffic := .empty
  solver asked _ := match answers[asked]? with
    | some a => .ok a
    | none => .error (.failed "no answer")
  settings := {}

/-- Two squares without a place. -/
def squares : Floorplan Rat :=
  { chip := ⟨100, 100⟩
    groups := .ofList
      [("a", { name := "a", area := 400, dimension := .options [⟨20, 20⟩] }),
       ("b", { name := "b", area := 400, dimension := .options [⟨20, 20⟩] })] }

/-- The first square in the corner, then the second one beside it. -/
def besideEachOther : List (Milp.Assignment Rat) := [#[1, 10, 10], #[1, 30, 10, 1, 0]]

theorem Run.solve_valid_squares :
    ∃ placed, (replaying besideEachOther).solve squares none = .ok placed ∧
    (∃ g ∈ ((replaying besideEachOther).base squares none).groups.values, g.isPlaced = false) ∧
    verify placed = .ok () ∧ placed.Valid := by
  have free : ∃ g ∈ ((replaying besideEachOther).base squares none).groups.values,
      g.isPlaced = false := by decide +kernel
  have order : solveOrder ((replaying besideEachOther).base squares none) = ["a", "b"] :=
    (solveOrder_of_pairwise (by decide +kernel)).trans (by decide +kernel)
  have batches : chunks 1 ["a", "b"] = [["a"], ["b"]] := by simp [chunks]
  have answered : ((replaying besideEachOther).placeBatches
      ((replaying besideEachOther).base squares none) [["a"], ["b"]] []).1.toOption.isSome =
        true := by decide +kernel
  obtain ⟨placed, answered⟩ := Option.isSome_iff_exists.mp answered
  have solved := solve_of_placeBatches order (by decide) rfl
    (batches ▸ toOption_eq_some.mp answered)
  exact ⟨placed, solved, free, (solve_valid _ _ _).1 placed solved free⟩

/-- A group that the file has moved to the edge of the chip, its size left open. -/
def movedPlan : Floorplan Binary64 :=
  { chip := ⟨100.0, 100.0⟩
    groups := .ofList
      [("a", { name := "a", area := 400.0, x := some 10.0, y := some 10.0
               dimension := .options [⟨20.0, 20.0⟩, ⟨40.0, 10.0⟩] })] }

/-- The group as an earlier run has placed it. -/
def earlierGroups : NameMap (AreaGroup Binary64) := .ofList
  [("a", { name := "a", area := 400.0, x := some 50.0, y := some 50.0
           dimension := .fixed ⟨40.0, 10.0⟩ })]

/-- The size of an earlier run completes the plan, so that it is handed out unchecked. -/
theorem seeded_off_chip : ∃ placed,
    (replaying []).solve movedPlan (some earlierGroups) = .ok placed ∧
      (verify placed).isOk = false ∧ ¬ placed.Valid := by
  have all : ∀ g ∈ ((replaying []).base movedPlan (some earlierGroups)).groups.values,
      g.isPlaced = true := by decide +kernel
  have refused : (verify ((replaying []).base movedPlan (some earlierGroups))).isOk = false := by
    decide +kernel
  refine ⟨_, solve_of_placed all, refused, fun valid => ?_⟩
  rw [verify_eq_ok.mpr valid] at refused
  cases refused

end Floorplan
end HardwareLinker
