import Mathlib.Data.Finset.Card
import Mathlib.Data.Finset.Prod
import HardwareLinker.Proofs.Cut.Arithmetic
import HardwareLinker.Proofs.Cut.Labelling

/-!
The number of augmentations. For one labelling every augmentation uses up a step that climbs, and no
step gains that: what becomes usable descends. When no such step leads to the sink the next search
labels it higher, which happens at most once for every node, so the flow ends with the sink out of
reach and not because of its bound.
-/

namespace HardwareLinker.Capacities

variable {α : Type} [Scalar α]

/-! ### Cells -/

@[simp] theorem nodes_augment (c : Capacities α) (path : List (Nat × Nat)) (amount : α) :
    (c.augment path amount).nodes = c.nodes := by
  induction path generalizing c with
  | nil => rfl
  | cons step rest ih => exact (ih _).trans rfl

@[simp] theorem nodes_augmentAll (source sink fuel : Nat) (f : Flow α) :
    (augmentAll source sink fuel f).residual.nodes = f.residual.nodes := by
  induction fuel generalizing f with
  | zero => rfl
  | succ fuel ih =>
      unfold augmentAll
      simp only
      split
      · rw [ih, nodes_augment]
      · rfl

@[simp] theorem nodes_ofEdges (nodes : Nat) (edges : List (Nat × Nat × α)) :
    (ofEdges nodes edges).nodes = nodes := by
  unfold ofEdges
  refine List.foldlRecOn edges _ (motive := fun c : Capacities α => c.nodes = nodes) rfl
    fun c hc e _ => ?_
  obtain ⟨a, b, w⟩ := e
  dsimp only
  split <;> exact hc

/-- The table has one cell for every pair of nodes. -/
def Square (c : Capacities α) : Prop := c.cells.size = c.nodes * c.nodes

omit [Scalar α] in
theorem cell_lt {n u v : Nat} (hu : u < n) (hv : v < n) : u * n + v < n * n := by
  have : (u + 1) * n ≤ n * n := Nat.mul_le_mul_right n hu
  rw [Nat.succ_mul] at this
  omega

omit [Scalar α] in
theorem cell_inj {n u v u' v' : Nat} (hv : v < n) (hv' : v' < n) :
    u * n + v = u' * n + v' ↔ u = u' ∧ v = v' := by
  refine ⟨fun h => ?_, fun h => by rw [h.1, h.2]⟩
  have hdiv := congrArg (· / n) h
  have hmod := congrArg (· % n) h
  have hn : 0 < n := Nat.lt_of_le_of_lt (Nat.zero_le v) hv
  simp only [Nat.mul_comm _ n, Nat.mul_add_div hn, Nat.div_eq_of_lt hv, Nat.div_eq_of_lt hv',
    Nat.add_zero] at hdiv
  simp only [Nat.mul_comm _ n, Nat.mul_add_mod, Nat.mod_eq_of_lt hv, Nat.mod_eq_of_lt hv'] at hmod
  exact ⟨hdiv, hmod⟩

theorem get_modify {c : Capacities α} (hc : c.Square) {u v u' v' : Nat} (hu : u < c.nodes)
    (hv : v < c.nodes) (hv' : v' < c.nodes) (f : α → α) :
    ({ c with cells := c.cells.modify (u * c.nodes + v) f } : Capacities α).get u' v' =
      if u = u' ∧ v = v' then f (c.get u v) else c.get u' v' := by
  have hlt : u * c.nodes + v < c.cells.size := hc ▸ cell_lt hu hv
  simp only [get, Array.getD_eq_getD_getElem?, Array.getElem?_modify, cell_inj hv hv']
  split
  · next h => simp [← h.1, ← h.2, hlt]
  · rfl

omit [Scalar α] in
theorem Square.modify {c : Capacities α} (hc : c.Square) (i : Nat) (f : α → α) :
    ({ c with cells := c.cells.modify i f } : Capacities α).Square := by
  rw [Square, Array.size_modify, hc]

def push (c : Capacities α) (step : Nat × Nat) (amount : α) : Capacities α :=
  (c.subtract step.1 step.2 amount).add step.2 step.1 amount

theorem Square.push {c : Capacities α} (hc : c.Square) (step : Nat × Nat) (amount : α) :
    (c.push step amount).Square := (hc.modify _ _).modify _ _

theorem augment_cons (c : Capacities α) (step : Nat × Nat) (path : List (Nat × Nat)) (amount : α) :
    c.augment (step :: path) amount = (c.push step amount).augment path amount := rfl

theorem get_push {c : Capacities α} (hc : c.Square) {u v a b : Nat} (hu : u < c.nodes)
    (hv : v < c.nodes) (hne : u ≠ v) (hb : b < c.nodes) (amount : α) :
    (c.push (u, v) amount).get a b =
      if v = a ∧ u = b then c.get v u + amount
      else if u = a ∧ v = b then c.get u v - amount else c.get a b := by
  have hfirst {a b : Nat} (hb : b < c.nodes) : (c.subtract u v amount).get a b =
      if u = a ∧ v = b then c.get u v - amount else c.get a b := get_modify hc hu hv hb _
  have hsecond : (c.push (u, v) amount).get a b = if v = a ∧ u = b then
      (c.subtract u v amount).get v u + amount else (c.subtract u v amount).get a b :=
    get_modify (hc.modify _ _) hv hu hb _
  have hback : (c.subtract u v amount).get v u = c.get v u := by
    rw [hfirst hu, if_neg fun h => hne h.1]
  rw [hsecond, hback, hfirst hb]

/-- A step between two nodes that climbs by one. -/
def Upward (n : Nat) (label : Nat → Nat) (step : Nat × Nat) : Prop :=
  step.1 < n ∧ step.2 < n ∧ label step.2 = label step.1 + 1

theorem Tight.upward {c : Capacities α} {label : Nat → Nat} {step : Nat × Nat}
    (h : c.Tight label step) : Upward c.nodes label step := ⟨h.source, h.sink, h.climbs⟩

/-- Augmenting takes the amount from every step once, and changes nothing beside the path and its
reverse. -/
theorem get_augment {c : Capacities α} (hc : c.Square) {label : Nat → Nat}
    {path : List (Nat × Nat)} (hpath : ∀ step ∈ path, Upward c.nodes label step)
    (hnodup : path.Nodup) (amount : α) {a b : Nat} (hb : b < c.nodes) :
    ((a, b) ∈ path → (c.augment path amount).get a b = c.get a b - amount) ∧
    ((a, b) ∉ path → (b, a) ∉ path → (c.augment path amount).get a b = c.get a b) := by
  induction path generalizing c with
  | nil => exact ⟨nofun, fun _ _ => rfl⟩
  | cons step rest ih =>
      obtain ⟨u, v⟩ := step
      obtain ⟨⟨hu, hv, hup⟩, hrest⟩ := List.forall_mem_cons.mp hpath
      obtain ⟨hnew, hnodup⟩ := List.nodup_cons.mp hnodup
      simp only at hu hv hup
      have hne : u ≠ v := by
        rintro rfl
        omega
      -- Every step climbs, so the path does not come back along this one.
      have hback : (v, u) ∉ rest := by
        intro hm
        have := (hrest _ hm).2.2
        simp only at this
        omega
      obtain ⟨taken, kept⟩ := ih (c := c.push (u, v) amount) (hc.push _ _) hrest hnodup hb
      have hget := get_push hc hu hv hne (a := a) hb amount
      rw [augment_cons]
      refine ⟨fun hm => ?_, fun hm hm' => ?_⟩
      · rcases List.mem_cons.mp hm with he | hm
        · cases he
          rw [kept hnew hback, hget, if_neg fun h => hne h.2, if_pos ⟨rfl, rfl⟩]
        · rw [taken hm, hget, if_neg, if_neg]
          · rintro ⟨rfl, rfl⟩
            exact hnew hm
          · rintro ⟨rfl, rfl⟩
            exact hback hm
      · rw [kept (fun h => hm (List.mem_cons_of_mem _ h)) (fun h => hm' (List.mem_cons_of_mem _ h)),
          hget, if_neg, if_neg]
        · rintro ⟨rfl, rfl⟩
          exact hm List.mem_cons_self
        · rintro ⟨rfl, rfl⟩
          exact hm' List.mem_cons_self

theorem Square.augment {c : Capacities α} (hc : c.Square) (path : List (Nat × Nat)) (amount : α) :
    (c.augment path amount).Square := by
  induction path generalizing c with
  | nil => exact hc
  | cons step rest ih => exact ih (hc.push step amount)

theorem square_ofEdges (nodes : Nat) (edges : List (Nat × Nat × α)) :
    (ofEdges nodes edges).Square := by
  have start : (zero nodes : Capacities α).Square := by simp [Square, zero]
  unfold ofEdges
  refine List.foldlRecOn edges _ (motive := Square) start fun c hc e _ => ?_
  obtain ⟨a, b, w⟩ := e
  dsimp only
  split
  · exact (hc.modify _ _).modify _ _
  · exact hc

/-! ### Progress -/

theorem bottleneck_mem [Scalar.Cancelling α] (c : Capacities α) {path : List (Nat × Nat)}
    (hpath : path ≠ []) : ∃ step ∈ path, c.bottleneck path = c.get step.1 step.2 := by
  have fold (rest : List (Nat × Nat)) (b : α) :
      rest.foldl (fun b step => Scalar.smaller b (c.get step.1 step.2)) b = b ∨
      ∃ step ∈ rest, rest.foldl (fun b step => Scalar.smaller b (c.get step.1 step.2)) b =
        c.get step.1 step.2 := by
    induction rest generalizing b with
    | nil => exact .inl rfl
    | cons step rest ih =>
        rw [List.foldl_cons]
        rcases ih (Scalar.smaller b (c.get step.1 step.2)) with h | ⟨step, hm, h⟩
        · rcases Scalar.Cancelling.smaller_eq b (c.get step.1 step.2) with hs | hs
          · exact .inl (h.trans hs)
          · exact .inr ⟨step, List.mem_cons_self, h.trans hs⟩
        · exact .inr ⟨step, List.mem_cons_of_mem _ hm, h⟩
  cases path with
  | nil => exact absurd rfl hpath
  | cons step rest =>
      obtain ⟨u, v⟩ := step
      rcases fold rest (c.get u v) with h | ⟨step, hm, h⟩
      · exact ⟨(u, v), List.mem_cons_self, h⟩
      · exact ⟨step, List.mem_cons_of_mem _ hm, h⟩

def tightSteps (c : Capacities α) (label : Nat → Nat) : Finset (Nat × Nat) :=
  (Finset.range c.nodes ×ˢ Finset.range c.nodes).filter fun step =>
    c.usable step.1 step.2 = true ∧ label step.2 = label step.1 + 1

theorem mem_tightSteps {c : Capacities α} {label : Nat → Nat} {step : Nat × Nat} :
    step ∈ c.tightSteps label ↔ c.Tight label step := by
  simp only [tightSteps, Finset.mem_filter, Finset.mem_product, Finset.mem_range]
  exact ⟨fun h => ⟨h.1.1, h.1.2, h.2.1, h.2.2⟩, fun h => ⟨⟨h.source, h.sink⟩, h.usable, h.climbs⟩⟩

theorem card_tightSteps_le (c : Capacities α) (label : Nat → Nat) :
    (c.tightSteps label).card ≤ c.nodes * c.nodes := by
  refine (Finset.card_filter_le _ _).trans ?_
  rw [Finset.card_product, Finset.card_range]

theorem tight_of_tight_augment {c : Capacities α} (hc : c.Square) {label : Nat → Nat}
    {path : List (Nat × Nat)} (hpath : ∀ step ∈ path, c.Tight label step) (hnodup : path.Nodup)
    (amount : α) {u v : Nat} (hv : v < c.nodes)
    (huse : (c.augment path amount).usable u v = true) : c.usable u v = true ∨ (v, u) ∈ path := by
  by_cases hm : (u, v) ∈ path
  · exact .inl (hpath _ hm).usable
  · by_cases hm' : (v, u) ∈ path
    · exact .inr hm'
    · have := (get_augment hc (fun step h => (hpath step h).upward) hnodup amount hv).2 hm hm'
      rw [usable, this] at huse
      exact .inl huse

/-- What becomes usable descends, so a labelling stays one. -/
theorem Climbs.augment {c : Capacities α} (hc : c.Square) {source : Nat} {label : Nat → Nat}
    (h : c.Climbs source label) {path : List (Nat × Nat)}
    (hpath : ∀ step ∈ path, c.Tight label step) (hnodup : path.Nodup) (amount : α) :
    (c.augment path amount).Climbs source label where
  source_zero := h.source_zero
  step {u v} hu hv huse := by
    rw [nodes_augment] at hu hv
    rcases tight_of_tight_augment hc hpath hnodup amount hv huse with huse | hm
    · exact h.step hu hv huse
    · have : label u = label v + 1 := (hpath _ hm).climbs
      omega

/-- Augmenting by the bottleneck uses a climbing step up and gains none. -/
theorem tightSteps_augment_ssubset [Scalar.Cancelling α] {c : Capacities α} (hc : c.Square)
    {label : Nat → Nat} {path : List (Nat × Nat)} (hpath : ∀ step ∈ path, c.Tight label step)
    (hnodup : path.Nodup) (hne : path ≠ []) :
    (c.augment path (c.bottleneck path)).tightSteps label ⊂ c.tightSteps label := by
  have upward := fun step h => (hpath step h).upward
  refine Finset.ssubset_iff_subset_ne.mpr ⟨fun step hm => ?_, fun heq => ?_⟩
  · have ht := mem_tightSteps.mp hm
    obtain ⟨hu, hv, huse, hl⟩ := ht
    rw [nodes_augment] at hu hv
    refine mem_tightSteps.mpr ⟨hu, hv, ?_, hl⟩
    refine (tight_of_tight_augment hc hpath hnodup _ hv huse).resolve_right fun hback => ?_
    have : label step.1 = label step.2 + 1 := (hpath _ hback).climbs
    omega
  · obtain ⟨step, hm, hb⟩ := c.bottleneck_mem hne
    have hin := mem_tightSteps.mpr (hpath step hm)
    rw [← heq] at hin
    have huse := (mem_tightSteps.mp hin).usable
    have hget := (get_augment hc upward hnodup (c.bottleneck path) (hpath step hm).sink).1 hm
    rw [usable, hget, hb] at huse
    exact Scalar.Cancelling.not_lt_sub_self _ (of_decide_eq_true huse)

/-- What a labelling leaves to do before the sink is out of reach. -/
def remaining (c : Capacities α) (label : Nat → Nat) (sink : Nat) : Nat :=
  (c.nodes - label sink) * (c.nodes * c.nodes) + (c.tightSteps label).card

/-- While the search reaches the sink there is a labelling that climbs along its path and leaves no
more to do than the one before, even without the step that is used up. -/
theorem Climbs.relabel {c : Capacities α} {source sink : Nat} {label : Nat → Nat}
    (h : c.Climbs source label) (hs : source < c.nodes)
    (hr : reached source (c.search source) sink = true) :
    ∃ label', c.Climbs source label' ∧
      (∀ step ∈ pathTo (c.search source) source c.nodes sink, c.Tight label' step) ∧
      (pathTo (c.search source) source c.nodes sink).Nodup ∧
      ∀ k, k < (c.tightSteps label').card →
        (c.nodes - label' sink) * (c.nodes * c.nodes) + k < c.remaining label sink := by
  obtain ⟨level, hlevel⟩ := c.levelled_search hs
  obtain ⟨steps, nodup⟩ := hlevel.pathTo hs c.nodes sink
  -- Either the search lifts the sink, or the old labelling climbs along the path as well.
  rcases Nat.lt_or_eq_of_le (h.le_level hlevel hs hr) with hlt | heq
  · refine ⟨c.labelling source (c.search source) level, hlevel.climbs, ?_, nodup, fun k hk => ?_⟩
    · refine hlevel.climbs.tight_pathTo hlevel hs c.nodes ?_
      rw [labelling, if_pos hr]
    · have hbound := hlevel.level_lt hr
      have hcard := c.card_tightSteps_le (c.labelling source (c.search source) level)
      rw [labelling, if_pos hr, remaining]
      have hmul : (c.nodes - level sink + 1) * (c.nodes * c.nodes) ≤
          (c.nodes - label sink) * (c.nodes * c.nodes) := Nat.mul_le_mul_right _ (by omega)
      rw [Nat.succ_mul] at hmul
      omega
  · exact ⟨label, h, h.tight_pathTo hlevel hs c.nodes heq, nodup,
      fun k hk => Nat.add_lt_add_left hk _⟩

/-- The loop ends with the sink out of reach when its fuel exceeds what is left to do. -/
theorem augmentAll_stops [Scalar.Cancelling α] {source sink fuel : Nat} {f : Flow α}
    {label : Nat → Nat} (hc : f.residual.Square) (hl : f.residual.Climbs source label)
    (hs : source < f.residual.nodes) (hne : sink ≠ source)
    (hfuel : f.residual.remaining label sink < fuel) :
    reached source ((augmentAll source sink fuel f).residual.search source) sink = false := by
  induction fuel generalizing f label with
  | zero => exact absurd hfuel (Nat.not_lt_zero _)
  | succ fuel ih =>
      unfold augmentAll
      simp only
      split
      · next hr =>
        obtain ⟨label', hl', tight, nodup, bound⟩ := hl.relabel hs hr
        obtain ⟨level, hlevel⟩ := f.residual.levelled_search hs
        have hpath := hlevel.pathTo_ne_nil hr hne
        have hfewer := tightSteps_augment_ssubset hc tight nodup hpath
        have hless := bound _ (Finset.card_lt_card hfewer)
        refine ih (hc.augment _ _) (hl'.augment hc tight nodup _) ?_ ?_
        · rwa [nodes_augment]
        · simp only [remaining, nodes_augment]
          omega
      · next hr => exact eq_false_of_ne_true hr

theorem maxFlow_stops [Scalar.Cancelling α] {c : Capacities α} (hc : c.Square)
    {source sink : Nat} (hs : source < c.nodes) (hne : sink ≠ source) :
    reached source ((c.maxFlow source sink).residual.search source) sink = false := by
  have none : c.tightSteps (fun _ => 0) = ∅ := by
    refine Finset.eq_empty_of_forall_notMem fun step hm => ?_
    have := (mem_tightSteps.mp hm).climbs
    simp at this
  have flat : c.Climbs source fun _ => 0 := ⟨rfl, fun _ _ _ => Nat.zero_le _⟩
  refine augmentAll_stops hc flat hs hne ?_
  rw [remaining, none, augmentationBound]
  simp only [Finset.card_empty, Nat.sub_zero, Nat.mul_assoc]
  omega

end HardwareLinker.Capacities
