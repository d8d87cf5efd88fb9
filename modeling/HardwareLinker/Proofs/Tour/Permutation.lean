import Mathlib.Data.List.Perm.Basic
import HardwareLinker.Tour.Annealing

/-!
Tours visit every point once. Turning a stretch around permutes the order, and turning it again
gives the order back, so that an evaluation keeps the current order or moves to a turned one. The
current order and the best one stay permutations of the positions, whatever is drawn and accepted.
-/

namespace HardwareLinker.Tour

variable {α σ : Type} [Scalar α] {src : Source σ α} {points : Array (Point α)} {cooling : α}

/-! ### Stretches turned around -/

theorem reverseBetween_perm {i j : Nat} (h : i ≤ j) (order : List Nat) :
    (reverseBetween i j order).Perm order := by
  have pieces : order.take i ++ (order.drop i).take (j + 1 - i) ++ order.drop (j + 1) = order := by
    have rest : (order.drop i).drop (j + 1 - i) = order.drop (j + 1) := by
      rw [List.drop_drop]
      congr 1
      omega
    rw [← rest, List.append_assoc, List.take_append_drop, List.take_append_drop]
  have turned : (reverseBetween i j order).Perm
      (order.take i ++ (order.drop i).take (j + 1 - i) ++ order.drop (j + 1)) :=
    ((List.reverse_perm _).append_left _).append_right _
  rwa [pieces] at turned

/-- The position that an element comes from when a stretch is turned around, which ends with the
order at the latest. -/
def turned (i j size k : Nat) : Nat :=
  if i ≤ k ∧ k < min (j + 1) size then i + min (j + 1) size - (k + 1) else k

theorem turned_turned (i j size k : Nat) : turned i j size (turned i j size k) = k := by
  unfold turned
  grind

theorem getElem?_reverseBetween {i j : Nat} (h : i ≤ j) (order : List Nat) (k : Nat) :
    (reverseBetween i j order)[k]? = order[turned i j order.length k]? := by
  unfold reverseBetween turned
  rw [List.append_assoc, List.getElem?_append, List.getElem?_append]
  grind

theorem reverseBetween_reverseBetween {i j : Nat} (h : i ≤ j) (order : List Nat) :
    reverseBetween i j (reverseBetween i j order) = order := by
  apply List.ext_getElem?
  intro k
  rw [getElem?_reverseBetween h, getElem?_reverseBetween h, (reverseBetween_perm h order).length_eq,
    turned_turned]

/-! ### One evaluation -/

/-- What an evaluation can do, whatever is drawn: it keeps the orders, or moves to the current order
with a stretch turned around. -/
inductive Evaluates (points : Array (Point α)) (st : State σ α) : State σ α → Prop where
  | kept (temperature : α) (source : σ) : Evaluates points st { st with temperature, source }
  | moved (temperature : α) (source : σ) {i j : Nat} (h : i ≤ j) : Evaluates points st
      (State.moveTo { st with temperature, source } (reverseBetween i j st.order)
        (length points (reverseBetween i j st.order)))

theorem evaluates_step (st : State σ α) : Evaluates points st (step src points cooling st) := by
  have ascending (a b : Nat) : Nat.min a b ≤ Nat.max a b :=
    Nat.le_trans (Nat.min_le_left a b) (Nat.le_max_left a b)
  unfold step
  dsimp only
  split
  · exact .kept ..
  · split
    · exact .moved _ _ (ascending _ _)
    · rw [reverseBetween_reverseBetween (ascending _ _)]
      exact .kept ..

/-- What evaluations keep is kept by a run. -/
theorem steps_of_evaluates {P : State σ α → Prop}
    (keeps : ∀ {st st' : State σ α}, P st → Evaluates points st st' → P st') (n : Nat)
    {st : State σ α} (start : P st) : P (steps src points cooling n st) := by
  induction n generalizing st with
  | zero => exact start
  | succ n ih => exact ih (keeps start (evaluates_step st))

/-- The current order and the best one both permute the positions. -/
structure State.Permutes (st : State σ α) (positions : List Nat) : Prop where
  current : st.order.Perm positions
  best : st.best.order.Perm positions

theorem State.Permutes.moveTo {st : State σ α} {positions order : List Nat}
    (permutes : st.Permutes positions) (perm : order.Perm positions) (length : α) :
    (st.moveTo order length).Permutes positions where
  current := perm
  best := by
    unfold State.moveTo
    dsimp only
    split
    · exact perm
    · exact permutes.best

theorem State.Permutes.evaluates {st st' : State σ α} {positions : List Nat}
    (permutes : st.Permutes positions) (evaluates : Evaluates points st st') :
    st'.Permutes positions := by
  cases evaluates with
  | kept => exact ⟨permutes.current, permutes.best⟩
  | moved temperature source h =>
      have unmoved : State.Permutes { st with temperature, source } positions :=
        ⟨permutes.current, permutes.best⟩
      exact unmoved.moveTo ((reverseBetween_perm h st.order).trans permutes.current) _

/-! ### The search -/

theorem anneal_perm (src : Source σ α) (source : σ) (points : Array (Point α))
    (settings : TourSettings α) :
    (anneal src source points settings).order.Perm (List.range points.size) := by
  unfold anneal
  dsimp only
  split
  · exact .refl _
  · exact (steps_of_evaluates State.Permutes.evaluates _ ⟨.refl _, .refl _⟩).best

theorem filterMap_range {β : Type} (l : List β) : (List.range l.length).filterMap (l[·]?) = l := by
  induction l with
  | nil => rfl
  | cons x l ih =>
      have rest : (List.range l.length).filterMap (fun i => (x :: l)[i + 1]?) = l := ih
      simpa [List.range_succ_eq_map, List.filterMap_map, Function.comp_def] using rest

/-- Every group with a centre is listed once. -/
theorem groupOrder_perm (src : Source σ α) (source : σ) (p : Floorplan α)
    (settings : TourSettings α) : (groupOrder src source p settings).Perm
      ((p.groups.values.filter (·.centre?.isSome)).map (·.name)) := by
  let located := p.groups.values.filterMap fun g => g.centre?.map fun c => (g.name, c)
  have listed : (List.range located.length).filterMap (fun i => (located[i]?).map Prod.fst) =
      located.map Prod.fst := by
    rw [← List.map_filterMap, filterMap_range]
  have named : located.map Prod.fst = (p.groups.values.filter (·.centre?.isSome)).map (·.name) := by
    unfold located
    induction p.groups.values with
    | nil => rfl
    | cons g groups ih => cases centre : g.centre? <;> simp [centre, ih]
  have perm := anneal_perm src source (located.map Prod.snd).toArray settings
  rw [List.size_toArray, List.length_map] at perm
  rw [← named, ← listed]
  exact perm.filterMap _

end HardwareLinker.Tour
