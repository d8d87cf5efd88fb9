import Mathlib.Algebra.BigOperators.Group.Finset.Piecewise
import Mathlib.Algebra.Order.BigOperators.Group.Finset
import Mathlib.Algebra.Order.Ring.Rat
import Mathlib.Data.Rat.Cast.Order
import Mathlib.Tactic.Linarith
import Mathlib.Tactic.Ring
import HardwareLinker.Proofs.Cut.Augmentation

/-!
Flows and cuts over exact numbers. An augmentation moves its amount out of every side that parts the
source from the sink, so what is left to cross such a side and the value of the flow add up to what
crossed it at first. Whole capacities stay whole, and the tolerance tells zero from one; when the
sink is out of reach nothing is left to leave the reached nodes. So the value is the least that
crosses from source to sink, and the reached nodes are the least side where no more than that does.
-/

namespace HardwareLinker.Capacities

/-! ### What crosses a side -/

/-- The capacity from the nodes of one side to all others. -/
def crossing (c : Capacities Rat) (side : Nat → Bool) : Rat :=
  ∑ x ∈ Finset.range c.nodes ×ˢ Finset.range c.nodes,
    if side x.1 && !side x.2 then c.get x.1 x.2 else 0

/-- No capacity between nodes is below zero. -/
def Nonneg (c : Capacities Rat) : Prop := ∀ u v, u < c.nodes → v < c.nodes → 0 ≤ c.get u v

theorem Nonneg.crossing {c : Capacities Rat} (h : c.Nonneg) (side : Nat → Bool) :
    0 ≤ c.crossing side := by
  refine Finset.sum_nonneg fun x hx => ?_
  obtain ⟨hu, hv⟩ := Finset.mem_product.mp hx
  split
  · exact h _ _ (Finset.mem_range.mp hu) (Finset.mem_range.mp hv)
  · exact le_refl 0

theorem crossing_modify {c : Capacities Rat} (hc : c.Square) {u v : Nat} (hu : u < c.nodes)
    (hv : v < c.nodes) (side : Nat → Bool) (f : Rat → Rat) :
    crossing { c with cells := c.cells.modify (u * c.nodes + v) f } side =
      c.crossing side + if side u && !side v then f (c.get u v) - c.get u v else 0 := by
  have cell : ∀ x ∈ Finset.range c.nodes ×ˢ Finset.range c.nodes,
      (if side x.1 && !side x.2 then
        ({ c with cells := c.cells.modify (u * c.nodes + v) f } : Capacities Rat).get x.1 x.2
      else 0) =
      (if side x.1 && !side x.2 then c.get x.1 x.2 else 0) +
        if x = (u, v) then (if side u && !side v then f (c.get u v) - c.get u v else 0) else 0 := by
    intro x hx
    obtain ⟨a, b⟩ := x
    obtain ⟨-, hb⟩ := Finset.mem_product.mp hx
    rw [get_modify hc hu hv (Finset.mem_range.mp hb)]
    by_cases h : u = a ∧ v = b
    · obtain ⟨rfl, rfl⟩ := h
      by_cases hs : (side u && !side v) = true
      · simp [hs]
      · simp [hs]
    · have hne : ¬ (a, b) = (u, v) :=
        fun e => h ⟨(congrArg Prod.fst e).symm, (congrArg Prod.snd e).symm⟩
      rw [if_neg h, if_neg hne, add_zero]
  unfold crossing
  rw [Finset.sum_congr rfl cell, Finset.sum_add_distrib, Finset.sum_ite_eq', if_pos]
  exact Finset.mem_product.mpr ⟨Finset.mem_range.mpr hu, Finset.mem_range.mpr hv⟩

/-- One for a node of the side. -/
def indicator (side : Nat → Bool) (v : Nat) : Rat := if side v then 1 else 0

/-- How far some steps lead out of a side. -/
def leaving (side : Nat → Bool) (path : List (Nat × Nat)) : Rat :=
  (path.map fun step => indicator side step.1 - indicator side step.2).sum

theorem crossing_push {c : Capacities Rat} (hc : c.Square) {step : Nat × Nat}
    (hu : step.1 < c.nodes) (hv : step.2 < c.nodes) (side : Nat → Bool) (amount : Rat) :
    (c.push step amount).crossing side =
      c.crossing side - amount * (indicator side step.1 - indicator side step.2) := by
  have first : (c.subtract step.1 step.2 amount).crossing side = c.crossing side +
      if side step.1 && !side step.2 then
        c.get step.1 step.2 - amount - c.get step.1 step.2
      else 0 :=
    crossing_modify hc hu hv side _
  have second : (c.push step amount).crossing side =
      (c.subtract step.1 step.2 amount).crossing side +
        if side step.2 && !side step.1 then
          (c.subtract step.1 step.2 amount).get step.2 step.1 + amount -
            (c.subtract step.1 step.2 amount).get step.2 step.1 else 0 :=
    crossing_modify (hc.modify _ _) hv hu side _
  rw [second, first]
  unfold indicator
  cases side step.1 <;> cases side step.2 <;> simp
  ring

theorem crossing_augment {c : Capacities Rat} (hc : c.Square) {path : List (Nat × Nat)}
    (hpath : ∀ step ∈ path, step.1 < c.nodes ∧ step.2 < c.nodes) (side : Nat → Bool)
    (amount : Rat) :
    (c.augment path amount).crossing side = c.crossing side - amount * leaving side path := by
  induction path generalizing c with
  | nil => simp [augment, leaving]
  | cons step rest ih =>
      obtain ⟨hstep, hrest⟩ := List.forall_mem_cons.mp hpath
      rw [augment_cons, ih (hc.push step amount) hrest, crossing_push hc hstep.1 hstep.2]
      simp only [leaving, List.map_cons, List.sum_cons]
      ring

/-- The steps back from a reached node lead out of a side if the source is in it and the node is
not. -/
theorem Levelled.leaving_pathTo {c : Capacities Rat} {source : Nat} {parents : Parents}
    {queue : List Nat} {level : Nat → Nat} (h : c.Levelled source parents queue level)
    (side : Nat → Bool) {fuel v : Nat} (hv : reached source parents v = true)
    (hfuel : level v < fuel) :
    leaving side (Capacities.pathTo parents source fuel v) =
      indicator side source - indicator side v := by
  induction fuel generalizing v with
  | zero => exact absurd hfuel (Nat.not_lt_zero _)
  | succ fuel ih =>
      unfold Capacities.pathTo
      by_cases hs : v = source
      · simp [hs, leaving]
      · obtain ⟨u, hu⟩ := (reached_iff.mp hv).resolve_left hs
        obtain ⟨-, hru, -, hl⟩ := h.parent hu
        have rest := ih hru (by omega)
        simp only [beq_iff_eq, hs, if_false, hu]
        simp only [leaving, List.map_cons, List.sum_cons] at rest ⊢
        rw [rest]
        ring

/-! ### Whole capacities -/

/-- A whole number, not below zero. -/
def Whole (w : Rat) : Prop := ∃ k : Nat, w = k

theorem Whole.nonneg {w : Rat} (h : Whole w) : 0 ≤ w := by
  obtain ⟨k, rfl⟩ := h
  exact Nat.cast_nonneg k

theorem Whole.add {w x : Rat} (hw : Whole w) (hx : Whole x) : Whole (w + x) := by
  obtain ⟨k, rfl⟩ := hw
  obtain ⟨l, rfl⟩ := hx
  exact ⟨k + l, (Nat.cast_add k l).symm⟩

theorem Whole.sub {w x : Rat} (hw : Whole w) (hx : Whole x) (hle : x ≤ w) : Whole (w - x) := by
  obtain ⟨k, rfl⟩ := hw
  obtain ⟨l, rfl⟩ := hx
  exact ⟨k - l, (Nat.cast_sub (Nat.cast_le.mp hle)).symm⟩

/-- The tolerance lies between zero and one, so it tells whole capacities from none. -/
theorem tolerance_lt_iff {w : Rat} (hw : Whole w) : (tolerance : Rat) < w ↔ w ≠ 0 := by
  have positive : (0 : Rat) < tolerance := by decide +kernel
  have small : (tolerance : Rat) < 1 := by decide +kernel
  obtain ⟨k, rfl⟩ := hw
  constructor
  · intro h
    exact (positive.trans h).ne'
  · intro h
    have hk : 1 ≤ k := Nat.one_le_iff_ne_zero.mpr fun e => h (by rw [e, Nat.cast_zero])
    exact small.trans_le (Nat.one_le_cast.mpr hk)

/-- The capacities between nodes are whole. -/
def Integral (c : Capacities Rat) : Prop :=
  ∀ u v, u < c.nodes → v < c.nodes → Whole (c.get u v)

theorem Integral.nonneg {c : Capacities Rat} (h : c.Integral) : c.Nonneg :=
  fun u v hu hv => (h u v hu hv).nonneg

theorem Integral.usable_iff {c : Capacities Rat} (h : c.Integral) {u v : Nat} (hu : u < c.nodes)
    (hv : v < c.nodes) : c.usable u v = true ↔ c.get u v ≠ 0 :=
  decide_eq_true_iff.trans (tolerance_lt_iff (h u v hu hv))

theorem bottleneck_le (c : Capacities Rat) {path : List (Nat × Nat)} :
    ∀ step ∈ path, c.bottleneck path ≤ c.get step.1 step.2 := by
  have smaller (a b : Rat) : Scalar.smaller a b = min a b := by
    change (if b < a then b else a) = min a b
    split
    · next h => exact (min_eq_right h.le).symm
    · next h => exact (min_eq_left (not_lt.mp h)).symm
  have fold (rest : List (Nat × Nat)) (b : Rat) :
      rest.foldl (fun b step => Scalar.smaller b (c.get step.1 step.2)) b ≤ b ∧
      ∀ step ∈ rest, rest.foldl (fun b step => Scalar.smaller b (c.get step.1 step.2)) b ≤
        c.get step.1 step.2 := by
    induction rest generalizing b with
    | nil => exact ⟨le_refl b, nofun⟩
    | cons step rest ih =>
        obtain ⟨start, later⟩ := ih (Scalar.smaller b (c.get step.1 step.2))
        have hs := smaller b (c.get step.1 step.2)
        rw [List.foldl_cons]
        refine ⟨start.trans (hs.trans_le (min_le_left _ _)), List.forall_mem_cons.mpr ⟨?_, later⟩⟩
        exact start.trans (hs.trans_le (min_le_right _ _))
  cases path with
  | nil => exact nofun
  | cons step rest =>
      obtain ⟨u, v⟩ := step
      exact List.forall_mem_cons.mpr (fold rest (c.get u v))

/-- What a path takes from its steps it adds to their reverses. -/
theorem get_augment_back {α : Type} [Scalar α] {c : Capacities α} (hc : c.Square)
    {label : Nat → Nat} {path : List (Nat × Nat)} (hpath : ∀ step ∈ path, Upward c.nodes label step)
    (hnodup : path.Nodup) (amount : α) {a b : Nat} (hb : b < c.nodes) (hm : (b, a) ∈ path) :
    (c.augment path amount).get a b = c.get a b + amount := by
  induction path generalizing c with
  | nil => cases hm
  | cons step rest ih =>
      obtain ⟨u, v⟩ := step
      obtain ⟨⟨hu, hv, hup⟩, hrest⟩ := List.forall_mem_cons.mp hpath
      obtain ⟨hnew, once⟩ := List.nodup_cons.mp hnodup
      simp only at hu hv hup
      have hne : u ≠ v := by
        rintro rfl
        omega
      have hback : (v, u) ∉ rest := by
        intro hm
        have := (hrest _ hm).2.2
        simp only at this
        omega
      have hget := get_push hc hu hv hne (a := a) hb amount
      have hrest' : ∀ step ∈ rest, Upward (c.push (u, v) amount).nodes label step := hrest
      rw [augment_cons]
      cases List.mem_cons.mp hm with
      | inl he =>
          cases he
          rw [(get_augment (hc.push _ _) hrest' once amount hb).2 hback hnew, hget,
            if_pos ⟨rfl, rfl⟩]
      | inr hm =>
          rw [ih (hc.push _ _) hrest' once hb hm, hget, if_neg, if_neg]
          · intro h
            obtain ⟨rfl, rfl⟩ := h
            exact hback hm
          · intro h
            obtain ⟨rfl, rfl⟩ := h
            exact hnew hm

/-- Augmenting takes the amount from a cell of the path, adds it to a cell of the way back, or
leaves a cell as it was. -/
theorem get_augment_cases {α : Type} [Scalar α] {c : Capacities α} (hc : c.Square)
    {label : Nat → Nat} {path : List (Nat × Nat)} (hpath : ∀ step ∈ path, Upward c.nodes label step)
    (hnodup : path.Nodup) (amount : α) {u v : Nat} (hu : u < c.nodes) (hv : v < c.nodes) :
    ((u, v) ∈ path ∧ (c.augment path amount).get u v = c.get u v - amount ∧
      (c.augment path amount).get v u = c.get v u + amount) ∨
    ((v, u) ∈ path ∧ (c.augment path amount).get u v = c.get u v + amount ∧
      (c.augment path amount).get v u = c.get v u - amount) ∨
    ((c.augment path amount).get u v = c.get u v ∧
      (c.augment path amount).get v u = c.get v u) := by
  obtain ⟨taken, kept⟩ := get_augment hc hpath hnodup amount (a := u) hv
  obtain ⟨taken', kept'⟩ := get_augment hc hpath hnodup amount (a := v) hu
  by_cases there : (u, v) ∈ path
  · exact .inl ⟨there, taken there, get_augment_back hc hpath hnodup amount hu there⟩
  · by_cases back : (v, u) ∈ path
    · exact .inr (.inl ⟨back, get_augment_back hc hpath hnodup amount hv back, taken' back⟩)
    · exact .inr (.inr ⟨kept there back, kept' back there⟩)

/-- What the loop augments along: different steps that climb for some labelling and lead from the
source to the sink. -/
structure Augmenting (c : Capacities Rat) (source sink : Nat)
    (path : List (Nat × Nat)) : Prop where
  upward : ∃ label, ∀ step ∈ path, Upward c.nodes label step
  usable : ∀ step ∈ path, c.usable step.1 step.2 = true
  nodup : path.Nodup
  nonempty : path ≠ []
  leads : ∀ side : Nat → Bool, leaving side path = indicator side source - indicator side sink

theorem augmenting_pathTo {c : Capacities Rat} {source sink : Nat}
    (hs : source < c.nodes) (hne : sink ≠ source)
    (hr : reached source (c.search source) sink = true) :
    c.Augmenting source sink (pathTo (c.search source) source c.nodes sink) := by
  obtain ⟨level, hlevel⟩ := c.levelled_search hs
  obtain ⟨steps, nodup⟩ := hlevel.pathTo hs c.nodes sink
  exact {
    upward := ⟨level, fun step hm => (steps step hm).1.upward⟩
    usable := fun step hm => (steps step hm).1.usable
    nodup := nodup
    nonempty := hlevel.pathTo_ne_nil hr hne
    leads := fun side => hlevel.leaving_pathTo side hr (hlevel.level_lt hr) }

theorem Augmenting.crossing_augment {c : Capacities Rat} {source sink : Nat}
    {path : List (Nat × Nat)} (h : c.Augmenting source sink path) (hc : c.Square)
    (side : Nat → Bool) (amount : Rat) :
    (c.augment path amount).crossing side =
      c.crossing side - amount * (indicator side source - indicator side sink) := by
  obtain ⟨label, upward⟩ := h.upward
  rw [← h.leads side]
  exact Capacities.crossing_augment hc
    (fun step hm => ⟨(upward step hm).1, (upward step hm).2.1⟩) side amount

/-! ### The invariant of a flow -/

/-- What the loop keeps: whole capacities, and on every side that parts the source from the sink the
flow makes up for what no longer crosses. -/
structure Feasible (c : Capacities Rat) (source sink : Nat) (f : Flow Rat) : Prop where
  nodes : f.residual.nodes = c.nodes
  square : f.residual.Square
  integral : f.residual.Integral
  whole : Whole f.value
  balance : ∀ side : Nat → Bool, side source = true → side sink = false →
    f.residual.crossing side + f.value = c.crossing side

theorem feasible_start {c : Capacities Rat} (hc : c.Square) (hi : c.Integral) (source sink : Nat) :
    Feasible c source sink ⟨0, c⟩ :=
  ⟨rfl, hc, hi, ⟨0, Nat.cast_zero.symm⟩, fun _ _ _ => add_zero _⟩

theorem Integral.augment {c : Capacities Rat} (hi : c.Integral) (hc : c.Square) {source sink : Nat}
    {path : List (Nat × Nat)} (h : c.Augmenting source sink path) :
    Whole (c.bottleneck path) ∧ (c.augment path (c.bottleneck path)).Integral := by
  obtain ⟨label, upward⟩ := h.upward
  obtain ⟨step, hm, hb⟩ := c.bottleneck_mem h.nonempty
  have amount : Whole (c.bottleneck path) := hb ▸ hi _ _ (upward step hm).1 (upward step hm).2.1
  refine ⟨amount, fun u v hu hv => ?_⟩
  rw [nodes_augment] at hu hv
  rcases get_augment_cases hc upward h.nodup (c.bottleneck path) hu hv with
    ⟨there, cell, -⟩ | ⟨-, cell, -⟩ | ⟨cell, -⟩
  · rw [cell]
    exact (hi u v hu hv).sub amount (c.bottleneck_le (u, v) there)
  · rw [cell]
    exact (hi u v hu hv).add amount
  · rw [cell]
    exact hi u v hu hv

theorem Feasible.augment {c : Capacities Rat} {source sink : Nat} {f : Flow Rat}
    (h : Feasible c source sink f) (hs : source < c.nodes) (hne : sink ≠ source)
    (hr : reached source (f.residual.search source) sink = true) :
    Feasible c source sink
      ⟨f.value + f.residual.bottleneck
          (pathTo (f.residual.search source) source f.residual.nodes sink),
        f.residual.augment (pathTo (f.residual.search source) source f.residual.nodes sink)
          (f.residual.bottleneck
            (pathTo (f.residual.search source) source f.residual.nodes sink))⟩ := by
  have path := augmenting_pathTo (h.nodes ▸ hs) hne hr
  obtain ⟨amount, integral⟩ := h.integral.augment h.square path
  refine ⟨?_, h.square.augment _ _, integral, h.whole.add amount, ?_⟩
  · rw [nodes_augment, h.nodes]
  · intro side hin hout
    have crossed := path.crossing_augment h.square side (f.residual.bottleneck
      (pathTo (f.residual.search source) source f.residual.nodes sink))
    have balance := h.balance side hin hout
    simp only [indicator, hin, hout, if_true, Bool.false_eq_true, if_false] at crossed
    simp only [crossed]
    linarith

theorem Feasible.augmentAll {c : Capacities Rat} {source sink : Nat} (hs : source < c.nodes)
    (hne : sink ≠ source) (fuel : Nat) {f : Flow Rat} (h : Feasible c source sink f) :
    Feasible c source sink (Capacities.augmentAll source sink fuel f) := by
  induction fuel generalizing f with
  | zero => exact h
  | succ fuel ih =>
      unfold Capacities.augmentAll
      simp only
      split
      · next hr => exact ih (h.augment hs hne hr)
      · exact h

/-! ### The end of the loop -/

theorem Feasible.value_le {c : Capacities Rat} {source sink : Nat} {f : Flow Rat}
    (h : Feasible c source sink f) {side : Nat → Bool} (hin : side source = true)
    (hout : side sink = false) : f.value ≤ c.crossing side := by
  have := h.balance side hin hout
  have := h.integral.nonneg.crossing side
  linarith

/-- The nodes that the source still reaches. -/
def within (f : Flow Rat) (source v : Nat) : Bool := reached source (f.residual.search source) v

/-- What crosses the reached nodes is the flow, once the sink is not among them. -/
theorem Feasible.crossing_within {c : Capacities Rat} {source sink : Nat} {f : Flow Rat}
    (h : Feasible c source sink f) (hs : source < c.nodes) (hstop : within f source sink = false) :
    c.crossing (within f source) = f.value := by
  have hs' : source < f.residual.nodes := h.nodes ▸ hs
  obtain ⟨level, hlevel⟩ := f.residual.levelled_search hs'
  have none : f.residual.crossing (within f source) = 0 := by
    refine Finset.sum_eq_zero fun x hx => ?_
    obtain ⟨hu, hv⟩ := Finset.mem_product.mp hx
    have hu := Finset.mem_range.mp hu
    have hv := Finset.mem_range.mp hv
    split
    · next hcross =>
      simp only [Bool.and_eq_true, Bool.not_eq_true'] at hcross
      by_contra hcell
      have huse := (h.integral.usable_iff hu hv).mpr hcell
      have hreach := (hlevel.closed hcross.1 List.not_mem_nil hv huse).1
      exact Bool.false_ne_true (hcross.2.symm.trans hreach)
    · rfl
  have hsource : within f source source = true := reached_iff.mpr (.inl rfl)
  have := h.balance _ hsource hstop
  linarith

/-- Every side that no more than the flow crosses holds all reached nodes. -/
theorem Feasible.within_least {c : Capacities Rat} {source sink : Nat} {f : Flow Rat}
    (h : Feasible c source sink f) (hs : source < c.nodes) {side : Nat → Bool}
    (hin : side source = true) (hout : side sink = false)
    (hmin : c.crossing side = f.value) {v : Nat}
    (hv : within f source v = true) : side v = true := by
  have hs' : source < f.residual.nodes := h.nodes ▸ hs
  obtain ⟨level, hlevel⟩ := f.residual.levelled_search hs'
  have none : f.residual.crossing side = 0 := by
    have := h.balance side hin hout
    linarith
  have cell : ∀ x ∈ Finset.range f.residual.nodes ×ˢ Finset.range f.residual.nodes,
      0 ≤ if side x.1 && !side x.2 then f.residual.get x.1 x.2 else 0 := by
    intro x hx
    obtain ⟨hu, hv⟩ := Finset.mem_product.mp hx
    split
    · exact (h.integral _ _ (Finset.mem_range.mp hu) (Finset.mem_range.mp hv)).nonneg
    · exact le_refl 0
  have zero := (Finset.sum_eq_zero_iff_of_nonneg cell).mp none
  -- The parent of a reached node is one level below, and the step from it is usable.
  induction hn : level v using Nat.strongRecOn generalizing v with
  | ind n ih =>
      cases reached_iff.mp hv with
      | inl he => exact he ▸ hin
      | inr hp =>
          obtain ⟨u, hu⟩ := hp
          obtain ⟨hlt, hru, huse, hl⟩ := hlevel.parent hu
          have hu' := (hlevel.parent_tight hs' hu).source
          have hside := ih (level u) (by omega) hru rfl
          by_contra hvs
          have hempty := zero (u, v)
            (Finset.mem_product.mpr ⟨Finset.mem_range.mpr hu', Finset.mem_range.mpr hlt⟩)
          simp only [hside, Bool.eq_false_iff.mpr hvs, Bool.not_false, Bool.and_self, if_true]
            at hempty
          exact (h.integral.usable_iff hu' hlt).mp huse hempty

end HardwareLinker.Capacities
