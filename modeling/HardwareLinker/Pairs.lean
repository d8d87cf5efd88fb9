/-!
Pairs of positions of a list, in the order in which two nested loops meet them.
-/

namespace HardwareLinker

/-- Every pair of two positions of a list, the earlier one first. -/
def orderedPairs {β : Type} : List β → List (β × β)
  | [] => []
  | x :: rest => rest.map (fun y => (x, y)) ++ orderedPairs rest

/-- Every pair of an item of the first list and one of the second. -/
def crossPairs {β γ : Type} (p : List β × List γ) : List (β × γ) :=
  p.1.flatMap fun a => p.2.map fun b => (a, b)

/-- Searches a list for the first item that passes a test which may fail, and gives it with the
others. -/
def takeFirst {β ε : Type} (test : β → Except ε Bool) : List β → Except ε (Option (β × List β))
  | [] => .ok none
  | b :: rest =>
    match test b with
    | .error e => .error e
    | .ok true => .ok (some (b, rest))
    | .ok false => (takeFirst test rest).map (Option.map fun (c, others) => (c, b :: others))

theorem length_of_takeFirst {β ε : Type} {test : β → Except ε Bool} {l others : List β} {b : β}
    (h : takeFirst test l = .ok (some (b, others))) : others.length + 1 = l.length := by
  induction l generalizing others with
  | nil => simp [takeFirst] at h
  | cons a rest ih =>
    simp only [takeFirst] at h
    split at h
    · cases h
    · simp only [Except.ok.injEq, Option.some.injEq, Prod.mk.injEq] at h
      simp [h.2]
    · cases hr : takeFirst test rest with
      | error e => rw [hr] at h; simp [Except.map] at h
      | ok r =>
        rw [hr] at h
        cases r with
        | none => simp [Except.map] at h
        | some p =>
          simp only [Except.map, Option.map, Except.ok.injEq, Option.some.injEq,
            Prod.mk.injEq] at h
          have hp : takeFirst test rest = .ok (some (b, p.2)) := by rw [hr]; simp [← h.1]
          simp [← h.2, ← ih hp]

end HardwareLinker
