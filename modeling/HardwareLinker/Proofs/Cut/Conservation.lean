import Mathlib.Algebra.BigOperators.Ring.Finset
import HardwareLinker.Proofs.Cut.Minimum

/-!
Flows over capacities of any size. Every turn of the loop moves more than the tolerance from the
source to the sink, and no more can leave the source than its capacity, so the turns come to an end.
A turn takes from no cell more than it holds, gives the way back what it takes, and leaves the sum
of what goes out of any other node as it was. At the end no cell that leaves the reached nodes holds
more than the tolerance.
-/

namespace HardwareLinker.Capacities

/-! ### Turns of the loop -/

section Loop

variable {α : Type} [Scalar α] {source sink : Nat}

/-- One turn: what the path of the search carries is moved along it. -/
def turn (source sink : Nat) (f : Flow α) : Flow α :=
  let path := pathTo (f.residual.search source) source f.residual.nodes sink
  let amount := f.residual.bottleneck path
  ⟨f.value + amount, f.residual.augment path amount⟩

/-- The loop leads from one flow to another in so many turns, each taken with the sink in reach. -/
inductive Turns (source sink : Nat) : Nat → Flow α → Flow α → Prop
  | none (f : Flow α) : Turns source sink 0 f f
  | next {k : Nat} {f f' : Flow α} (h : Turns source sink k f f')
      (hr : reached source (f'.residual.search source) sink = true) :
      Turns source sink (k + 1) f (turn source sink f')

theorem Turns.after {k : Nat} {f f' : Flow α}
    (hr : reached source (f.residual.search source) sink = true)
    (h : Turns source sink k (turn source sink f) f') : Turns source sink (k + 1) f f' := by
  generalize hg : turn source sink f = g at h
  induction h with
  | none g => exact hg ▸ .next (.none f) hr
  | next h hr' ih => exact .next (ih hg) hr'

theorem exists_turns_augmentAll (source sink fuel : Nat) (f : Flow α) :
    ∃ k, Turns source sink k f (augmentAll source sink fuel f) := by
  induction fuel generalizing f with
  | zero => exact ⟨0, .none f⟩
  | succ fuel ih =>
      unfold augmentAll
      simp only
      split
      · next hr =>
        obtain ⟨k, h⟩ := ih (turn source sink f)
        exact ⟨k + 1, h.after hr⟩
      · exact ⟨0, .none f⟩

end Loop

/-! ### What a turn keeps -/

variable {c : Capacities Rat} {source sink : Nat} {f f' : Flow Rat}

/-- The two directions between two nodes share what they had at first, and on every side the flow
makes up for what no longer crosses. -/
structure Kept (c : Capacities Rat) (source sink : Nat) (f : Flow Rat) : Prop where
  nodes : f.residual.nodes = c.nodes
  square : f.residual.Square
  nonneg : f.residual.Nonneg
  shared : ∀ u v, u < c.nodes → v < c.nodes →
    f.residual.get u v + f.residual.get v u = c.get u v + c.get v u
  balance : ∀ side : Nat → Bool,
    f.residual.crossing side + f.value * (indicator side source - indicator side sink) =
      c.crossing side

theorem kept_start (hc : c.Square) (hn : c.Nonneg) (source sink : Nat) :
    Kept c source sink ⟨0, c⟩ :=
  ⟨rfl, hc, hn, fun _ _ _ _ => rfl, fun side => by rw [zero_mul, add_zero]⟩

/-- A turn keeps all of this, and the value gains more than the tolerance. -/
theorem Kept.turn (h : Kept c source sink f) (hs : source < c.nodes) (hne : sink ≠ source)
    (hr : reached source (f.residual.search source) sink = true) :
    Kept c source sink (Capacities.turn source sink f) ∧
      f.value + tolerance < (Capacities.turn source sink f).value := by
  have path := augmenting_pathTo (h.nodes ▸ hs) hne hr
  unfold Capacities.turn
  dsimp only
  generalize pathTo (f.residual.search source) source f.residual.nodes sink = steps at path ⊢
  obtain ⟨label, upward⟩ := path.upward
  obtain ⟨step, hm, amount⟩ := f.residual.bottleneck_mem path.nonempty
  have gain : tolerance < f.residual.bottleneck steps := by
    rw [amount]
    exact of_decide_eq_true (path.usable step hm)
  have positive : (0 : Rat) ≤ tolerance := by decide +kernel
  have cells {u v : Nat} (hu : u < c.nodes) (hv : v < c.nodes) :=
    get_augment_cases h.square upward path.nodup (f.residual.bottleneck steps)
      (h.nodes.symm ▸ hu) (h.nodes.symm ▸ hv)
  refine ⟨⟨?_, h.square.augment _ _, fun u v hu hv => ?_, fun u v hu hv => ?_, fun side => ?_⟩, ?_⟩
  · rw [nodes_augment, h.nodes]
  · rw [nodes_augment] at hu hv
    have before := h.nonneg u v hu hv
    rcases cells (h.nodes ▸ hu) (h.nodes ▸ hv) with ⟨there, cell, -⟩ | ⟨-, cell, -⟩ | ⟨cell, -⟩
    · rw [cell]
      exact sub_nonneg.mpr (f.residual.bottleneck_le (u, v) there)
    · rw [cell]
      linarith
    · rwa [cell]
  · rw [← h.shared u v hu hv]
    rcases cells hu hv with ⟨-, cell, back⟩ | ⟨-, cell, back⟩ | ⟨cell, back⟩
    · rw [cell, back]
      ring
    · rw [cell, back]
      ring
    · rw [cell, back]
  · rw [← h.balance side, path.crossing_augment h.square]
    ring
  · linarith

theorem Kept.turns {k : Nat} (hs : source < c.nodes) (hne : sink ≠ source)
    (run : Turns source sink k f f') (h : Kept c source sink f) :
    Kept c source sink f' ∧ f.value + k * tolerance ≤ f'.value := by
  induction run with
  | none f => exact ⟨h, by simp⟩
  | next run hr ih =>
      obtain ⟨kept, gained⟩ := ih h
      obtain ⟨kept', more⟩ := kept.turn hs hne hr
      refine ⟨kept', ?_⟩
      push_cast
      linarith

/-! ### The flow out of a node -/

/-- What flows out of a node less what flows in: what the cells of its row have lost. -/
def netFlow (c : Capacities Rat) (f : Flow Rat) (u : Nat) : Rat :=
  ∑ v ∈ Finset.range c.nodes, (c.get u v - f.residual.get u v)

theorem crossing_node (c : Capacities Rat) {u : Nat} (hu : u < c.nodes) :
    c.crossing (· == u) = ∑ v ∈ Finset.range c.nodes, if v = u then 0 else c.get u v := by
  rw [crossing, Finset.sum_product, Finset.sum_eq_single u]
  · refine Finset.sum_congr rfl fun v _ => ?_
    by_cases h : v = u <;> simp [h]
  · intro a _ ha
    refine Finset.sum_eq_zero fun v _ => ?_
    simp [ha]
  · exact fun h => absurd (Finset.mem_range.mpr hu) h

theorem Kept.netFlow_eq (h : Kept c source sink f) {u : Nat} (hu : u < c.nodes) :
    netFlow c f u = f.value * (indicator (· == u) source - indicator (· == u) sink) := by
  have loop : f.residual.get u u = c.get u u := by
    have := h.shared u u hu hu
    linarith
  have balance := h.balance (· == u)
  rw [crossing_node c hu, crossing_node f.residual (h.nodes.symm ▸ hu), h.nodes] at balance
  have split : netFlow c f u = (∑ v ∈ Finset.range c.nodes, if v = u then 0 else c.get u v) -
      ∑ v ∈ Finset.range c.nodes, if v = u then 0 else f.residual.get u v := by
    rw [netFlow, ← Finset.sum_sub_distrib]
    refine Finset.sum_congr rfl fun v _ => ?_
    by_cases hv : v = u
    · rw [if_pos hv, if_pos hv, hv, loop, sub_self, sub_zero]
    · rw [if_neg hv, if_neg hv]
  rw [split]
  linarith

/-- After some turns of the loop from the empty flow: searches end with their queues empty, no
residual is below zero, the two directions of a pair hold what they held at first, and what the
source sends out reaches the sink through nodes that keep none of it. More turns take more
capacity. -/
structure Conserves (c : Capacities Rat) (source sink turns : Nat) (f : Flow Rat) : Prop where
  search : f.residual.SearchEnds source
  bounded : turns * tolerance ≤ f.value ∧ f.value ≤ c.crossing (· == source)
  nonneg : ∀ u v, u < c.nodes → v < c.nodes → 0 ≤ f.residual.get u v
  shared : ∀ u v, u < c.nodes → v < c.nodes →
    f.residual.get u v + f.residual.get v u = c.get u v + c.get v u
  emits : netFlow c f source = f.value
  takes : netFlow c f sink = -f.value
  passes : ∀ u < c.nodes, u ≠ source → u ≠ sink → netFlow c f u = 0

theorem conserves_of_turns (hc : c.Square) (hn : c.Nonneg) (hs : source < c.nodes)
    (ht : sink < c.nodes) (hne : sink ≠ source) {k : Nat} (run : Turns source sink k ⟨0, c⟩ f) :
    Conserves c source sink k f := by
  obtain ⟨kept, gained⟩ := (kept_start hc hn source sink).turns hs hne run
  have hs' : source < f.residual.nodes := kept.nodes.symm ▸ hs
  constructor
  · exact f.residual.searchEnds hs'
  · have balance := kept.balance (· == source)
    have left := kept.nonneg.crossing (· == source)
    simp only [indicator, beq_self_eq_true, if_true, beq_iff_eq, hne, if_false] at balance
    simp only [zero_add] at gained
    exact ⟨gained, by linarith⟩
  · exact fun u v hu hv => kept.nonneg u v (kept.nodes.symm ▸ hu) (kept.nodes.symm ▸ hv)
  · exact kept.shared
  · simp [kept.netFlow_eq hs, indicator, hne]
  · simp [kept.netFlow_eq ht, indicator, hne.symm]
  · intro u hu source sink
    simp [kept.netFlow_eq hu, indicator, source.symm, sink.symm]

/-! ### The end of the loop -/

/-- The pairs of nodes that lead out of a side. -/
def crossingPairs (n : Nat) (side : Nat → Bool) : Finset (Nat × Nat) :=
  (Finset.range n ×ˢ Finset.range n).filter fun x => side x.1 && !side x.2

/-- The nodes that are returned hold the source and not the sink; what leaves them is at least the
flow, and exceeds it by no more than the tolerance for every pair that leads out. -/
structure Separates (c : Capacities Rat) (source sink : Nat) (f : Flow Rat) : Prop where
  returned : sourceSide f source = (List.range c.nodes).map (within f source)
  inside : within f source source = true
  outside : within f source sink = false
  least : f.value ≤ c.crossing (within f source)
  excess : c.crossing (within f source) ≤
    f.value + tolerance * (crossingPairs c.nodes (within f source)).card

theorem Kept.separates (h : Kept c source sink f) (hs : source < c.nodes)
    (hstop : within f source sink = false) : Separates c source sink f := by
  obtain ⟨level, hlevel⟩ := f.residual.levelled_search (h.nodes.symm ▸ hs)
  have hsource : within f source source = true := reached_iff.mpr (.inl rfl)
  have balance := h.balance (within f source)
  rw [indicator, indicator, hsource, hstop] at balance
  simp only [if_true, Bool.false_eq_true, if_false, sub_zero, mul_one] at balance
  have left := h.nonneg.crossing (within f source)
  -- A cell that leaves the reached nodes is not usable, or it would lead to one more.
  have small : f.residual.crossing (within f source) ≤
      tolerance * (crossingPairs c.nodes (within f source)).card := by
    rw [crossing, ← Finset.sum_filter, h.nodes, mul_comm, ← nsmul_eq_mul]
    refine Finset.sum_le_card_nsmul _ _ _ fun x hx => ?_
    obtain ⟨hin, hcross⟩ := Finset.mem_filter.mp hx
    simp only [Bool.and_eq_true, Bool.not_eq_true'] at hcross
    refine not_lt.mp fun hlarge => ?_
    have hv : x.2 < f.residual.nodes :=
      h.nodes.symm ▸ Finset.mem_range.mp (Finset.mem_product.mp hin).2
    have hreach := (hlevel.closed hcross.1 List.not_mem_nil hv (decide_eq_true hlarge)).1
    exact Bool.false_ne_true (hcross.2.symm.trans hreach)
  exact {
    returned := by rw [← h.nodes]; rfl
    inside := hsource
    outside := hstop
    least := by linarith
    excess := by linarith }

/-- However capacities are measured, the loop keeps the flow together after every turn, and it ends
with the sink out of reach, not because of its bound. -/
theorem maxFlow_conserves (hc : c.Square) (hn : c.Nonneg) (hs : source < c.nodes)
    (ht : sink < c.nodes) (hne : sink ≠ source) :
    (∀ k f, Turns source sink k ⟨0, c⟩ f → Conserves c source sink k f) ∧
    (∃ k, Turns source sink k ⟨0, c⟩ (c.maxFlow source sink)) ∧
    c.FlowEnds source sink ∧ Separates c source sink (c.maxFlow source sink) := by
  have ends := flowEnds hc hs hne
  obtain ⟨k, run⟩ := exists_turns_augmentAll source sink (c.augmentationBound source) ⟨0, c⟩
  have kept := ((kept_start hc hn source sink).turns hs hne run).1
  exact ⟨fun k f run => conserves_of_turns hc hn hs ht hne run, ⟨k, run⟩, ends,
    kept.separates hs ends.unreached⟩

/-- Three nodes in a row, with capacities that are not whole. -/
def fractions : Capacities Rat := ofEdges 3 [(0, 1, 1 / 2), (1, 2, 1 / 3)]

theorem fractions_maxFlow_conserves :
    (∀ u < 3, ∀ v < 3, 0 ≤ fractions.get u v ∧ fractions.get u v = fractions.get v u ∧
      fractions.get u u = 0) ∧
    (∃ k, Conserves fractions 0 2 k (fractions.maxFlow 0 2)) ∧
    fractions.crossing (within (fractions.maxFlow 0 2) 0) ≤ 1 / 3 + 1e-9 * 2 := by
  have cells : ∀ u < 3, ∀ v < 3, 0 ≤ fractions.get u v ∧ fractions.get u v = fractions.get v u ∧
      fractions.get u u = 0 := by decide +kernel
  have nonneg : fractions.Nonneg := fun u v hu hv => (cells u hu v hv).1
  have square : fractions.Square := square_ofEdges _ _
  have nodes : 0 < fractions.nodes ∧ 2 < fractions.nodes := by decide
  have value : (fractions.maxFlow 0 2).value = 1 / 3 := by decide +kernel
  have pairs : (crossingPairs 3 (within (fractions.maxFlow 0 2) 0)).card = 2 := by decide +kernel
  obtain ⟨conserves, ⟨k, run⟩, -, separates⟩ :=
    maxFlow_conserves square nonneg nodes.1 nodes.2 (by decide)
  have excess := separates.excess
  rw [value, show fractions.nodes = 3 from rfl, pairs] at excess
  exact ⟨cells, ⟨k, conserves k _ run⟩, excess⟩

end HardwareLinker.Capacities
