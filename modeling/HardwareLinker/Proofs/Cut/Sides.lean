import Mathlib.Data.List.Nodup
import HardwareLinker.Cut.Minimum
import HardwareLinker.Proofs.Cut.Augmentation
import HardwareLinker.Proofs.Pairs

/-!
The side labels of a cut. Flow keeps the number of nodes, so every cut labels each node once; the
sink is out of reach of the source, so both sides are taken. The cheapest cut is one of those
between two nodes.
-/

namespace HardwareLinker

variable {α : Type} [Scalar α]

namespace Capacities

theorem length_sourceSide (f : Flow α) (source : Nat) :
    (sourceSide f source).length = f.residual.nodes := by
  simp [sourceSide]

end Capacities

namespace Cut

theorem length_labelsOf (sides : List Bool) : (labelsOf sides).length = sides.length := by
  unfold labelsOf
  simp only
  split <;> simp

/-- Labels are zero and one, and both are there if the sides are not all the same. -/
theorem labelsOf_proper (sides : List Bool) :
    (∀ l ∈ labelsOf sides, l ≤ 1) ∧
    (true ∈ sides → false ∈ sides → 0 ∈ labelsOf sides ∧ 1 ∈ labelsOf sides) := by
  have flat : ∀ l ∈ sides.map fun on : Bool => if on then 0 else 1, l ≤ 1 := by
    intro l hl
    obtain ⟨on, -, rfl⟩ := List.mem_map.mp hl
    cases on <;> decide
  have both (ht : true ∈ sides) (hf : false ∈ sides) :
      0 ∈ sides.map (fun on : Bool => if on then 0 else 1) ∧
        1 ∈ sides.map fun on : Bool => if on then 0 else 1 :=
    ⟨List.mem_map.mpr ⟨true, ht, rfl⟩, List.mem_map.mpr ⟨false, hf, rfl⟩⟩
  unfold labelsOf
  simp only
  split
  · refine ⟨fun l hl => ?_, fun ht hf => ?_⟩
    · obtain ⟨k, -, rfl⟩ := List.mem_map.mp hl
      exact Nat.sub_le 1 k
    · exact ⟨List.mem_map.mpr ⟨1, (both ht hf).2, rfl⟩, List.mem_map.mpr ⟨0, (both ht hf).1, rfl⟩⟩
  · exact ⟨flat, both⟩

theorem labels_between_proper [Scalar.Cancelling α] {c : Capacities α} (hc : c.Square)
    {source sink : Nat} (hs : source < c.nodes) (ht : sink < c.nodes) (hne : sink ≠ source) :
    (∀ l ∈ (between c source sink).labels, l ≤ 1) ∧
    0 ∈ (between c source sink).labels ∧ 1 ∈ (between c source sink).labels := by
  have hnodes : (c.maxFlow source sink).residual.nodes = c.nodes := by simp [Capacities.maxFlow]
  have side {v : Nat} (hv : v < c.nodes) :
      Capacities.reached source ((c.maxFlow source sink).residual.search source) v ∈
        Capacities.sourceSide (c.maxFlow source sink) source :=
    List.mem_map.mpr ⟨v, List.mem_range.mpr (hnodes ▸ hv), rfl⟩
  have hsource := side hs
  have hsink := side ht
  rw [Capacities.reached_iff.mpr (.inl rfl)] at hsource
  rw [Capacities.maxFlow_stops hc hs hne] at hsink
  exact ⟨(labelsOf_proper _).1, (labelsOf_proper _).2 hsource hsink⟩

theorem length_labels_between (c : Capacities α) (source sink : Nat) :
    (between c source sink).labels.length = c.nodes := by
  simp [between, length_labelsOf, Capacities.length_sourceSide, Capacities.maxFlow]

theorem pick_eq (best : Option (Cut α)) (cut : Cut α) :
    pick best cut = some cut ∨ pick best cut = best ∧ best ≠ none := by
  cases best with
  | none => exact .inl rfl
  | some b =>
      unfold pick
      simp only
      split
      · exact .inl rfl
      · exact .inr ⟨rfl, Option.some_ne_none b⟩

theorem mem_of_foldl_pick {cuts : List (Cut α)} {best : Option (Cut α)} {cut : Cut α}
    (h : cuts.foldl pick best = some cut) : best = some cut ∨ cut ∈ cuts := by
  induction cuts generalizing best with
  | nil => exact .inl h
  | cons first rest ih =>
      cases ih h with
      | inr h => exact .inr (List.mem_cons_of_mem first h)
      | inl h =>
          cases pick_eq best first with
          | inl hp => exact .inr (Option.some.inj (h.symm.trans hp) ▸ List.mem_cons_self)
          | inr hp => exact .inl (hp.1.symm.trans h)

theorem foldl_pick_ne_none {cuts : List (Cut α)} {best : Option (Cut α)}
    (h : cuts ≠ [] ∨ best ≠ none) : cuts.foldl pick best ≠ none := by
  induction cuts generalizing best with
  | nil => exact h.resolve_left (· rfl)
  | cons first rest ih =>
      refine ih (.inr ?_)
      cases pick_eq best first with
      | inl hp =>
          rw [hp]
          exact Option.some_ne_none first
      | inr hp =>
          rw [hp.1]
          exact hp.2

/-- The cuts that the nested loops meet. -/
def candidates (nodes : Nat) (edges : List (Nat × Nat × α)) : List (Cut α) :=
  (orderedPairs (List.range nodes)).map fun p => between (Capacities.ofEdges nodes edges) p.1 p.2

theorem minimum?_eq (nodes : Nat) (edges : List (Nat × Nat × α)) :
    minimum? nodes edges = (candidates nodes edges).foldl pick none := by
  rw [candidates, List.foldl_map]
  rfl

theorem mem_candidates {nodes : Nat} {edges : List (Nat × Nat × α)} {cut : Cut α} :
    cut ∈ candidates nodes edges ↔
      ∃ s t, s < t ∧ t < nodes ∧ cut = between (Capacities.ofEdges nodes edges) s t := by
  unfold candidates
  constructor
  · intro h
    obtain ⟨⟨s, t⟩, hp, rfl⟩ := List.mem_map.mp h
    obtain ⟨hst, ht⟩ := mem_orderedPairs_range.mp hp
    exact ⟨s, t, hst, ht, rfl⟩
  · intro ⟨s, t, hst, ht, h⟩
    exact List.mem_map.mpr ⟨(s, t), mem_orderedPairs_range.mpr ⟨hst, ht⟩, h.symm⟩

/-- The cut that is found lies between two different nodes, and one is found as soon as there are
two nodes. -/
theorem minimum?_spec (nodes : Nat) (edges : List (Nat × Nat × α)) :
    (∀ cut, minimum? nodes edges = some cut → ∃ s t, s < t ∧ t < nodes ∧
      cut = between (Capacities.ofEdges nodes edges) s t) ∧
    (2 ≤ nodes → minimum? nodes edges ≠ none) := by
  rw [minimum?_eq]
  constructor
  · intro cut h
    exact mem_candidates.mp ((mem_of_foldl_pick h).resolve_left (Option.some_ne_none cut).symm)
  · intro h
    exact foldl_pick_ne_none <| .inl <| List.ne_nil_of_mem <|
      mem_candidates.mpr ⟨0, 1, Nat.zero_lt_one, h, rfl⟩

theorem length_labels_minimum? {nodes : Nat} {edges : List (Nat × Nat × α)} {cut : Cut α}
    (h : minimum? nodes edges = some cut) : cut.labels.length = nodes := by
  obtain ⟨s, t, -, -, rfl⟩ := (minimum?_spec nodes edges).1 cut h
  rw [length_labels_between, Capacities.nodes_ofEdges]

theorem labels_minimum?_proper [Scalar.Cancelling α] {nodes : Nat} {edges : List (Nat × Nat × α)}
    {cut : Cut α} (h : minimum? nodes edges = some cut) :
    (∀ l ∈ cut.labels, l ≤ 1) ∧ 0 ∈ cut.labels ∧ 1 ∈ cut.labels := by
  obtain ⟨s, t, hst, ht, rfl⟩ := (minimum?_spec nodes edges).1 cut h
  have hn := Capacities.nodes_ofEdges nodes edges
  exact labels_between_proper (Capacities.square_ofEdges nodes edges) (by omega) (by omega)
    (by omega)

end Cut
end HardwareLinker
