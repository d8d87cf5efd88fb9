import HardwareLinker.Proofs.Cut.Search

/-!
Paths of a search and labellings of its network. The steps back from a node climb by one each. A
labelling bounds the levels from below, and where it meets the level of a node it climbs along the
whole path to it.
-/

namespace HardwareLinker.Capacities

variable {α : Type} [Scalar α]

/-! ### Steps back to the source -/

/-- A usable step that climbs by one. -/
structure Tight (c : Capacities α) (level : Nat → Nat) (step : Nat × Nat) : Prop where
  source : step.1 < c.nodes
  sink : step.2 < c.nodes
  usable : c.usable step.1 step.2 = true
  climbs : level step.2 = level step.1 + 1

theorem Levelled.parent_tight {c : Capacities α} {source : Nat} {parents : Parents}
    {queue : List Nat} {level : Nat → Nat} (h : c.Levelled source parents queue level)
    (hs : source < c.nodes) {u v : Nat} (hp : parents.getD v none = some u) :
    c.Tight level (u, v) := by
  obtain ⟨hv, hu, huse, hl⟩ := h.parent hp
  refine ⟨?_, hv, huse, hl⟩
  rcases reached_iff.mp hu with rfl | ⟨w, hw⟩
  · exact hs
  · exact (h.parent hw).1

/-- The steps back from a reached node are tight and different, and they do not lead above it. -/
theorem Levelled.pathTo {c : Capacities α} {source : Nat} {parents : Parents}
    {queue : List Nat} {level : Nat → Nat} (h : c.Levelled source parents queue level)
    (hs : source < c.nodes) (fuel v : Nat) :
    (∀ step ∈ pathTo parents source fuel v, c.Tight level step ∧ level step.2 ≤ level v) ∧
    (pathTo parents source fuel v).Nodup := by
  induction fuel generalizing v with
  | zero => exact ⟨by simp [Capacities.pathTo], .nil⟩
  | succ fuel ih =>
      unfold Capacities.pathTo
      split
      · exact ⟨by simp, .nil⟩
      · split
        · next u hu =>
          obtain ⟨steps, nodup⟩ := ih u
          have htight := h.parent_tight hs hu
          have hclimbs : level v = level u + 1 := htight.climbs
          refine ⟨List.forall_mem_cons.mpr ⟨⟨htight, Nat.le_refl _⟩, fun step hm => ?_⟩,
            List.nodup_cons.mpr ⟨fun hm => ?_, nodup⟩⟩
          · have := (steps step hm).2
            exact ⟨(steps step hm).1, by omega⟩
          · have := (steps _ hm).2
            simp only at this
            omega
        · exact ⟨by simp, .nil⟩

theorem Levelled.pathTo_ne_nil {c : Capacities α} {source : Nat} {parents : Parents}
    {queue : List Nat} {level : Nat → Nat} (h : c.Levelled source parents queue level) {v : Nat}
    (hv : reached source parents v = true) (hne : v ≠ source) :
    Capacities.pathTo parents source c.nodes v ≠ [] := by
  obtain ⟨u, hu⟩ := (reached_iff.mp hv).resolve_left hne
  cases hn : c.nodes with
  | zero => exact absurd (h.parent hu).1 (by omega)
  | succ n => simp [Capacities.pathTo, hne, hu]

/-! ### Labellings -/

/-- No usable step climbs more than one, from zero at the source. -/
structure Climbs (c : Capacities α) (source : Nat) (label : Nat → Nat) : Prop where
  source_zero : label source = 0
  step : ∀ {u v : Nat}, u < c.nodes → v < c.nodes → c.usable u v = true → label v ≤ label u + 1

/-- The levels of a finished search, with all other nodes above them. -/
def labelling (c : Capacities α) (source : Nat) (parents : Parents) (level : Nat → Nat) (v : Nat) :
    Nat := if reached source parents v then level v else c.nodes

theorem Levelled.climbs {c : Capacities α} {source : Nat} {parents : Parents}
    {level : Nat → Nat} (h : c.Levelled source parents [] level) :
    c.Climbs source (c.labelling source parents level) where
  source_zero := by
    rw [labelling, if_pos (reached_iff.mpr (.inl rfl)), h.source_level]
  step {u v} hu hv huse := by
    unfold labelling
    by_cases hr : reached source parents u = true
    · obtain ⟨hrv, hl⟩ := h.closed hr List.not_mem_nil hv huse
      rwa [if_pos hr, if_pos hrv]
    · rw [if_neg hr]
      split
      · next hrv => exact Nat.le_succ_of_le (Nat.le_of_lt (h.level_lt hrv))
      · exact Nat.le_succ _

/-- A labelling is nowhere above the levels. -/
theorem Climbs.le_level {c : Capacities α} {source : Nat} {parents : Parents} {queue : List Nat}
    {level label : Nat → Nat} (hl : c.Climbs source label)
    (h : c.Levelled source parents queue level) (hs : source < c.nodes) {v : Nat}
    (hv : reached source parents v = true) : label v ≤ level v := by
  induction hn : level v generalizing v with
  | zero =>
      rcases reached_iff.mp hv with rfl | ⟨u, hu⟩
      · exact Nat.le_of_eq hl.source_zero
      · have := (h.parent_tight hs hu).climbs
        simp only at this
        omega
  | succ n ih =>
      rcases reached_iff.mp hv with rfl | ⟨u, hu⟩
      · rw [h.source_level] at hn
        cases hn
      · have ht := h.parent_tight hs hu
        have hc : level v = level u + 1 := ht.climbs
        have hstep : label v ≤ label u + 1 := hl.step ht.source ht.sink ht.usable
        have := ih (h.parent hu).2.1 (by omega)
        omega

/-- Where a labelling meets the level of a node, it climbs along the whole path to it. -/
theorem Climbs.tight_pathTo {c : Capacities α} {source : Nat} {parents : Parents}
    {queue : List Nat} {level label : Nat → Nat} (hl : c.Climbs source label)
    (h : c.Levelled source parents queue level) (hs : source < c.nodes) (fuel : Nat) {v : Nat}
    (heq : label v = level v) : ∀ step ∈ pathTo parents source fuel v, c.Tight label step := by
  induction fuel generalizing v with
  | zero => simp [pathTo]
  | succ fuel ih =>
      unfold pathTo
      split
      · simp
      · split
        · next u hu =>
          have ht := h.parent_tight hs hu
          have hc : level v = level u + 1 := ht.climbs
          have hstep : label v ≤ label u + 1 := hl.step ht.source ht.sink ht.usable
          have hu' := hl.le_level h hs (h.parent hu).2.1
          have hmeet : label u = level u := by omega
          refine List.forall_mem_cons.mpr ⟨⟨ht.source, ht.sink, ht.usable, ?_⟩, ih hmeet⟩
          show label v = label u + 1
          omega
        · simp

end HardwareLinker.Capacities
