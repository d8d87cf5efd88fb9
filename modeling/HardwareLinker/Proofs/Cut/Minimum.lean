import HardwareLinker.Proofs.Cut.Duality
import HardwareLinker.Proofs.Cut.Sides

/-!
The cheapest cut over exact numbers. Between two nodes the flow gives the least weight that parts
them, and the labels show the least side of the source where no more is cut. Every way to part the
nodes parts some two of them, so the cheapest of these cuts is the cheapest of all; the nested loops
keep the first in the order of values and then of labels.
-/

namespace HardwareLinker

open Capacities (Whole)

/-! ### Weights across a network -/

/-- The weight of the edges whose ends are on different sides. -/
def cutWeight {β : Type} [DecidableEq β] (edges : List (Nat × Nat × Rat)) (side : Nat → β) : Rat :=
  (edges.map fun e => if side e.1 = side e.2.1 then 0 else e.2.2).sum

/-- Sides matter only as far as they tell the ends of edges apart. -/
theorem cutWeight_congr {β γ : Type} [DecidableEq β] [DecidableEq γ]
    {edges : List (Nat × Nat × Rat)} {side : Nat → β} {side' : Nat → γ}
    (h : ∀ e ∈ edges, side e.1 = side e.2.1 ↔ side' e.1 = side' e.2.1) :
    cutWeight edges side = cutWeight edges side' := by
  unfold cutWeight
  congr 1
  apply List.map_congr_left
  intro e he
  simp only [h e he]

namespace Capacities

theorem crossing_zero (n : Nat) (side : Nat → Bool) :
    (zero n : Capacities Rat).crossing side = 0 := by
  have empty (u v : Nat) : (zero n : Capacities Rat).get u v = 0 := by
    simp only [get, zero, Array.getD_eq_getD_getElem?, Array.getElem?_replicate]
    split <;> rfl
  refine Finset.sum_eq_zero fun x _ => ?_
  rw [empty]
  exact ite_self 0

/-- What is kept while edges are entered one by one. -/
structure Entered (n : Nat) (edges : List (Nat × Nat × Rat)) (c : Capacities Rat) : Prop where
  nodes : c.nodes = n
  square : c.Square
  integral : c.Integral
  crossing : ∀ side : Nat → Bool, c.crossing side = cutWeight edges side

theorem Integral.add {c : Capacities Rat} (hi : c.Integral) (hc : c.Square) {u v : Nat}
    (hu : u < c.nodes) (hv : v < c.nodes) {w : Rat} (hw : Whole w) : (c.add u v w).Integral := by
  intro a b ha hb
  rw [Capacities.add, get_modify hc hu hv hb]
  split
  · exact (hi u v hu hv).add hw
  · exact hi a b ha hb

theorem crossing_add {c : Capacities Rat} (hc : c.Square) {u v : Nat} (hu : u < c.nodes)
    (hv : v < c.nodes) (w : Rat) (side : Nat → Bool) :
    (c.add u v w).crossing side = c.crossing side + if side u && !side v then w else 0 := by
  have h := crossing_modify hc hu hv side (· + w)
  simp only [add_sub_cancel_left] at h
  exact h

theorem Entered.enter {n : Nat} {edges : List (Nat × Nat × Rat)} {c : Capacities Rat}
    (h : Entered n edges c) {a b : Nat} {w : Rat} (ha : a < n) (hb : b < n) (hw : Whole w) :
    Entered n (edges ++ [(a, b, w)])
      (if a ≠ b ∧ a < n ∧ b < n then (c.add a b w).add b a w else c) := by
  have weight {β : Type} [DecidableEq β] (side : Nat → β) :
      cutWeight (edges ++ [(a, b, w)]) side =
        cutWeight edges side + if side a = side b then 0 else w := by
    simp [cutWeight]
  have ha' : a < c.nodes := h.nodes ▸ ha
  have hb' : b < c.nodes := h.nodes ▸ hb
  split
  · have square : (c.add a b w).Square := h.square.modify _ _
    refine ⟨h.nodes, square.modify _ _,
      (h.integral.add h.square ha' hb' hw).add square hb' ha' hw, fun side => ?_⟩
    rw [crossing_add square hb' ha', crossing_add h.square ha' hb', h.crossing, weight]
    cases side a <;> cases side b <;> simp
  · next hout =>
    have hab : a = b := by
      by_contra hne
      exact hout ⟨hne, ha, hb⟩
    refine ⟨h.nodes, h.square, h.integral, fun side => ?_⟩
    rw [h.crossing, weight, hab, if_pos rfl, add_zero]

theorem entered_ofEdges {n : Nat} {edges : List (Nat × Nat × Rat)}
    (hin : ∀ e ∈ edges, e.1 < n ∧ e.2.1 < n) (hw : ∀ e ∈ edges, Whole e.2.2) :
    Entered n edges (ofEdges n edges) := by
  have fold (done rest : List (Nat × Nat × Rat)) (c : Capacities Rat)
      (hin : ∀ e ∈ rest, e.1 < n ∧ e.2.1 < n) (hw : ∀ e ∈ rest, Whole e.2.2)
      (h : Entered n done c) :
      Entered n (done ++ rest) (rest.foldl (fun c (a, b, w) =>
        if a ≠ b ∧ a < n ∧ b < n then (c.add a b w).add b a w else c) c) := by
    induction rest generalizing done c with
    | nil => simpa using h
    | cons e rest ih =>
        obtain ⟨a, b, w⟩ := e
        obtain ⟨he, hin⟩ := List.forall_mem_cons.mp hin
        obtain ⟨hwe, hw⟩ := List.forall_mem_cons.mp hw
        have := ih (done ++ [(a, b, w)]) _ hin hw (h.enter he.1 he.2 hwe)
        rwa [List.append_assoc, List.singleton_append] at this
  refine fold [] edges (zero n) hin hw ⟨rfl, by simp [Square, zero], ?_, fun side => ?_⟩
  · intro u v _ _
    refine ⟨0, ?_⟩
    simp only [get, zero, Array.getD_eq_getD_getElem?, Array.getElem?_replicate]
    split <;> rfl
  · rw [crossing_zero]
    rfl

/-! ### The end of the loop -/

/-- The queue and the way back from a reached node run out before their fuel does. -/
structure SearchEnds {α : Type} [Scalar α] (c : Capacities α) (source : Nat) : Prop where
  queue : ∀ extra, c.searchFrom source (c.nodes + extra) (Array.replicate c.nodes none) [source] =
    c.search source
  path : ∀ extra v, reached source (c.search source) v = true →
    pathTo (c.search source) source (c.nodes + extra) v = pathTo (c.search source) source c.nodes v

theorem Levelled.pathTo_extra {α : Type} [Scalar α] {c : Capacities α} {source : Nat}
    {parents : Parents} {queue : List Nat} {level : Nat → Nat}
    (h : c.Levelled source parents queue level) {fuel v : Nat}
    (hv : reached source parents v = true) (hfuel : level v < fuel) (extra : Nat) :
    Capacities.pathTo parents source (fuel + extra) v =
      Capacities.pathTo parents source fuel v := by
  induction fuel generalizing v with
  | zero => exact absurd hfuel (Nat.not_lt_zero _)
  | succ fuel ih =>
      rw [Nat.succ_add]
      unfold Capacities.pathTo
      split
      · rfl
      · split
        · next u hu =>
          obtain ⟨-, hru, -, hl⟩ := h.parent hu
          rw [ih hru (by omega)]
        · rfl

theorem searchEnds {α : Type} [Scalar α] (c : Capacities α) {source : Nat}
    (hs : source < c.nodes) : c.SearchEnds source := by
  obtain ⟨level, hlevel⟩ := c.levelled_search hs
  exact ⟨fun extra => (levelled_start c hs).searchFrom_extra (c.search_fuel hs) extra,
    fun extra v hv => hlevel.pathTo_extra hv (hlevel.level_lt hv) extra⟩

/-- Once the sink is out of reach, further turns of the loop change nothing. -/
theorem augmentAll_of_stopped {α : Type} [Scalar α] {source sink fuel : Nat} {f : Flow α}
    (h : reached source ((augmentAll source sink fuel f).residual.search source) sink = false)
    (extra : Nat) : augmentAll source sink (fuel + extra) f = augmentAll source sink fuel f := by
  induction fuel generalizing f with
  | zero =>
      rw [Nat.zero_add]
      cases extra with
      | zero => rfl
      | succ extra =>
          unfold augmentAll at h ⊢
          exact if_neg (Bool.eq_false_iff.mp h)
  | succ fuel ih =>
      rw [Nat.succ_add]
      unfold augmentAll at h ⊢
      simp only at h ⊢
      split
      · next hr =>
        rw [if_pos hr] at h
        exact ih h
      · rfl

/-- The loop ends because the sink is out of reach, and before its fuel runs out. -/
structure FlowEnds (c : Capacities Rat) (source sink : Nat) : Prop where
  unreached : within (c.maxFlow source sink) source sink = false
  loop : ∀ extra, augmentAll source sink (c.augmentationBound source + extra) ⟨0, c⟩ =
    c.maxFlow source sink

theorem flowEnds {c : Capacities Rat} (hc : c.Square) {source sink : Nat} (hs : source < c.nodes)
    (hne : sink ≠ source) : c.FlowEnds source sink :=
  ⟨maxFlow_stops hc hs hne, augmentAll_of_stopped (maxFlow_stops hc hs hne)⟩

end Capacities

/-! ### Labels -/

namespace Cut

/-- A label tells whether a node is on the side of node zero. -/
theorem labelsOf_cons (first : Bool) (rest : List Bool) :
    labelsOf (first :: rest) = (first :: rest).map fun on => if on = first then 0 else 1 := by
  have flip (l : List Bool) : (l.map fun on => if on then 0 else 1).map (1 - ·) =
      l.map fun on => if on = false then 0 else 1 := by
    rw [List.map_map]
    apply List.map_congr_left
    intro on _
    cases on <;> rfl
  cases first with
  | false => exact flip (false :: rest)
  | true => rfl

theorem getElem?_labels_between {c : Capacities Rat} {source sink : Nat} {i : Nat}
    (hi : i < c.nodes) : (between c source sink).labels[i]? =
      some (if Capacities.within (c.maxFlow source sink) source i =
        Capacities.within (c.maxFlow source sink) source 0 then 0 else 1) := by
  have hnodes : (c.maxFlow source sink).residual.nodes = c.nodes := by simp [Capacities.maxFlow]
  obtain ⟨n, hn⟩ : ∃ n, c.nodes = n + 1 := ⟨c.nodes - 1, by omega⟩
  have sides : Capacities.sourceSide (c.maxFlow source sink) source =
      (List.range (n + 1)).map (Capacities.within (c.maxFlow source sink) source) := by
    rw [← hn, ← hnodes]
    rfl
  have labels : (between c source sink).labels =
      (List.range (n + 1)).map fun i =>
        if Capacities.within (c.maxFlow source sink) source i =
          Capacities.within (c.maxFlow source sink) source 0 then 0 else 1 := by
    change labelsOf (Capacities.sourceSide (c.maxFlow source sink) source) = _
    rw [sides, List.range_succ_eq_map, List.map_cons, labelsOf_cons, ← List.map_cons,
      List.map_map]
    rfl
  rw [labels, List.getElem?_map, List.getElem?_range (hn ▸ hi)]
  rfl

/-! ### The order of cuts -/

/-- Cuts go by their values and, where these are equal, by their labels. -/
def Precedes (a b : Cut Rat) : Prop := a.value < b.value ∨ a.value = b.value ∧ a.labels ≤ b.labels

theorem Precedes.trans {a b c : Cut Rat} (hab : Precedes a b) (hbc : Precedes b c) :
    Precedes a c := by
  cases hab with
  | inl hab =>
      cases hbc with
      | inl hbc => exact .inl (hab.trans hbc)
      | inr hbc => exact .inl (hbc.1 ▸ hab)
  | inr hab =>
      cases hbc with
      | inl hbc => exact .inl (hab.1 ▸ hbc)
      | inr hbc => exact .inr ⟨hab.1.trans hbc.1, le_trans hab.2 hbc.2⟩

theorem Precedes.value_le {a b : Cut Rat} (h : Precedes a b) : a.value ≤ b.value := by
  cases h with
  | inl h => exact h.le
  | inr h => exact h.1.le

theorem within_tolerance_iff {w x : Rat} (hw : Whole w) (hx : Whole x) :
    Scalar.abs (w - x) ≤ (Capacities.tolerance : Rat) ↔ w = x := by
  have small : (Capacities.tolerance : Rat) < 1 := by decide +kernel
  have positive : (0 : Rat) < Capacities.tolerance := by decide +kernel
  change (if 0 ≤ w - x then w - x else -(w - x)) ≤ Capacities.tolerance ↔ w = x
  constructor
  · intro h
    by_contra hne
    split at h
    · next hsign =>
      have gap := (Capacities.tolerance_lt_iff (hw.sub hx (sub_nonneg.mp hsign))).mpr
        (sub_ne_zero.mpr hne)
      exact absurd h (not_le.mpr gap)
    · next hsign =>
      have hle : w ≤ x := by linarith
      have gap := (Capacities.tolerance_lt_iff (hx.sub hw hle)).mpr (sub_ne_zero.mpr (Ne.symm hne))
      rw [neg_sub] at h
      exact absurd h (not_le.mpr gap)
  · intro h
    rw [h, sub_self, if_pos (le_refl 0)]
    exact positive.le

theorem lt_sub_tolerance_iff {w x : Rat} (hw : Whole w) (hx : Whole x) :
    w < x - (Capacities.tolerance : Rat) ↔ w < x := by
  have positive : (0 : Rat) < Capacities.tolerance := by decide +kernel
  constructor
  · intro h
    linarith
  · intro h
    have gap := (Capacities.tolerance_lt_iff (hx.sub hw h.le)).mpr (sub_ne_zero.mpr h.ne')
    linarith

theorem better_iff {a b : Cut Rat} (ha : Whole a.value) (hb : Whole b.value) :
    a.better b = true ↔ a.value < b.value ∨ a.value = b.value ∧ a.labels < b.labels := by
  rw [← lt_sub_tolerance_iff ha hb, ← within_tolerance_iff ha hb]
  unfold better
  simp

/-- Keeping the better of two cuts all along keeps the first of all. -/
theorem foldl_pick {cuts : List (Cut Rat)} {b : Cut Rat} (hb : Whole b.value)
    (hcuts : ∀ cut ∈ cuts, Whole cut.value) :
    ∃ m, cuts.foldl pick (some b) = some m ∧ m ∈ b :: cuts ∧ ∀ cut ∈ b :: cuts, Precedes m cut := by
  induction cuts generalizing b with
  | nil => exact ⟨b, rfl, List.mem_cons_self, by simp [Precedes]⟩
  | cons cut rest ih =>
      obtain ⟨hcut, hrest⟩ := List.forall_mem_cons.mp hcuts
      rw [List.foldl_cons]
      unfold pick
      simp only
      split
      · next h =>
        obtain ⟨m, hm, hmem, first⟩ := ih hcut hrest
        obtain ⟨hmcut, hmrest⟩ := List.forall_mem_cons.mp first
        have before : Precedes cut b := by
          cases (better_iff hcut hb).mp h with
          | inl h => exact .inl h
          | inr h => exact .inr ⟨h.1, le_of_lt h.2⟩
        exact ⟨m, hm, List.mem_cons_of_mem b hmem,
          List.forall_mem_cons.mpr ⟨hmcut.trans before, first⟩⟩
      · next h =>
        obtain ⟨m, hm, hmem, first⟩ := ih hb hrest
        obtain ⟨hmb, hmrest⟩ := List.forall_mem_cons.mp first
        have before : Precedes b cut := by
          rw [better_iff hcut hb, not_or, not_and] at h
          cases lt_or_eq_of_le (not_lt.mp h.1) with
          | inl hlt => exact .inl hlt
          | inr heq => exact .inr ⟨heq, not_lt.mp (h.2 heq.symm)⟩
        refine ⟨m, hm, ?_, List.forall_mem_cons.mpr ⟨hmb, List.forall_mem_cons.mpr
          ⟨hmb.trans before, hmrest⟩⟩⟩
        cases List.mem_cons.mp hmem with
        | inl h => exact h ▸ List.mem_cons_self
        | inr h => exact List.mem_cons_of_mem b (List.mem_cons_of_mem cut h)

/-! ### The cut between two nodes -/

/-- Labels of `n` nodes with both sides taken and node zero on side zero. -/
structure Proper (n : Nat) (labels : List Nat) : Prop where
  length : labels.length = n
  sides : ∀ l ∈ labels, l ≤ 1
  zero : labels[0]? = some 0
  one : 1 ∈ labels

/-- A cut with its price that parts two nodes, no other side that parts them is cheaper, and each
one of this price holds all the nodes that are labelled like the source. -/
structure Parts (n : Nat) (edges : List (Nat × Nat × Rat)) (source sink : Nat) (cut : Cut Rat) :
    Prop where
  proper : Proper n cut.labels
  value : cut.value = cutWeight edges (cut.labels[·]?)
  parted : cut.labels[source]? ≠ cut.labels[sink]?
  cheapest : ∀ side : Nat → Bool, side source = true → side sink = false →
    cut.value ≤ cutWeight edges side
  least : ∀ side : Nat → Bool, side source = true → side sink = false →
    cutWeight edges side = cut.value → ∀ v < n, cut.labels[v]? = cut.labels[source]? →
      side v = true

theorem labels_between_eq_iff {c : Capacities Rat} {source sink i j : Nat} (hi : i < c.nodes)
    (hj : j < c.nodes) :
    (between c source sink).labels[i]? = (between c source sink).labels[j]? ↔
      Capacities.within (c.maxFlow source sink) source i =
        Capacities.within (c.maxFlow source sink) source j := by
  rw [getElem?_labels_between hi, getElem?_labels_between hj]
  cases Capacities.within (c.maxFlow source sink) source i <;>
    cases Capacities.within (c.maxFlow source sink) source j <;>
    cases Capacities.within (c.maxFlow source sink) source 0 <;> decide

theorem feasible_maxFlow {n : Nat} {edges : List (Nat × Nat × Rat)} {c : Capacities Rat}
    (hc : Capacities.Entered n edges c) {source sink : Nat} (hs : source < n)
    (hne : sink ≠ source) : Capacities.Feasible c source sink (c.maxFlow source sink) :=
  (Capacities.feasible_start hc.square hc.integral source sink).augmentAll
    (hc.nodes.symm ▸ hs) hne _

theorem parts_between {n : Nat} {edges : List (Nat × Nat × Rat)} {c : Capacities Rat}
    (hc : Capacities.Entered n edges c) (hin : ∀ e ∈ edges, e.1 < n ∧ e.2.1 < n)
    {source sink : Nat} (hs : source < n) (ht : sink < n) (hne : sink ≠ source) :
    Parts n edges source sink (between c source sink) := by
  have flow := feasible_maxFlow hc hs hne
  obtain ⟨rfl, square, -, crossing⟩ := hc
  have stop : Capacities.within (c.maxFlow source sink) source sink = false :=
    Capacities.maxFlow_stops square hs hne
  have start : Capacities.within (c.maxFlow source sink) source source = true :=
    Capacities.reached_iff.mpr (.inl rfl)
  have value : (between c source sink).value = cutWeight edges
      (Capacities.within (c.maxFlow source sink) source) :=
    (flow.crossing_within hs stop).symm.trans (crossing _)
  have proper := labels_between_proper square hs ht hne
  refine ⟨⟨length_labels_between c source sink, proper.1, ?_, proper.2.2⟩, ?_, ?_, ?_, ?_⟩
  · rw [getElem?_labels_between (by omega), if_pos rfl]
  · rw [value]
    apply cutWeight_congr
    intro e he
    exact (labels_between_eq_iff (hin e he).1 (hin e he).2).symm
  · rw [ne_eq, labels_between_eq_iff hs ht, start, stop]
    exact Bool.true_eq_false.mp
  · intro side hside hout
    rw [← crossing side]
    exact flow.value_le hside hout
  · intro side hside hout heq v hv hlabel
    rw [labels_between_eq_iff hv hs, start] at hlabel
    exact flow.within_least hs hside hout ((crossing side).trans heq) hlabel

/-! ### The cheapest cut -/

/-- The first of the cheapest cuts: it has its price, every way to part the nodes costs as much, it
is the cut between two nodes, and no cut of this price between two nodes has lesser labels. -/
structure IsMinimum (n : Nat) (edges : List (Nat × Nat × Rat)) (cut : Cut Rat) : Prop where
  proper : Proper n cut.labels
  value : cut.value = cutWeight edges (cut.labels[·]?)
  cheapest : ∀ side : Nat → Bool, (∃ u < n, side u = true) → (∃ v < n, side v = false) →
    cut.value ≤ cutWeight edges side
  source : ∃ s t, s < t ∧ t < n ∧ cut = between (Capacities.ofEdges n edges) s t
  first : ∀ s t, s < t → t < n → (between (Capacities.ofEdges n edges) s t).value = cut.value →
    cut.labels ≤ (between (Capacities.ofEdges n edges) s t).labels

/-- The nested loops keep the first of the cuts they meet. -/
theorem minimum?_precedes {n : Nat} {edges : List (Nat × Nat × Rat)} (hn : 2 ≤ n)
    (whole : ∀ s t, s < t → t < n → Whole (between (Capacities.ofEdges n edges) s t).value) :
    ∃ cut, minimum? n edges = some cut ∧
      (∃ s t, s < t ∧ t < n ∧ cut = between (Capacities.ofEdges n edges) s t) ∧
      ∀ s t, s < t → t < n → Precedes cut (between (Capacities.ofEdges n edges) s t) := by
  have values : ∀ cut ∈ candidates n edges, Whole cut.value := by
    intro cut h
    obtain ⟨s, t, hst, ht, rfl⟩ := mem_candidates.mp h
    exact whole s t hst ht
  have member {s t : Nat} (hst : s < t) (ht : t < n) :
      between (Capacities.ofEdges n edges) s t ∈ candidates n edges :=
    mem_candidates.mpr ⟨s, t, hst, ht, rfl⟩
  rw [minimum?_eq]
  cases hcuts : candidates n edges with
  | nil =>
      rw [hcuts] at member
      cases member Nat.zero_lt_one hn
  | cons b rest =>
      rw [hcuts] at values member
      obtain ⟨hb, hrest⟩ := List.forall_mem_cons.mp values
      obtain ⟨cut, found, hm, least⟩ := foldl_pick hb hrest
      exact ⟨cut, found, mem_candidates.mp (hcuts ▸ hm),
        fun s t hst ht => least _ (member hst ht)⟩

/-- Sides turned over cut the same edges. -/
theorem cutWeight_not (edges : List (Nat × Nat × Rat)) (side : Nat → Bool) :
    cutWeight edges (fun v => !side v) = cutWeight edges side := by
  apply cutWeight_congr
  intro e _
  cases side e.1 <;> cases side e.2.1 <;> decide

/-- A way to part the nodes parts two of them, the lesser one on the given side after the sides may
have been turned over. -/
theorem exists_parted {n : Nat} (edges : List (Nat × Nat × Rat)) {side : Nat → Bool}
    (on : ∃ u < n, side u = true) (off : ∃ v < n, side v = false) :
    ∃ s t side', s < t ∧ t < n ∧ side' s = true ∧ side' t = false ∧
      cutWeight edges side' = cutWeight edges side := by
  obtain ⟨u, hu, hon⟩ := on
  obtain ⟨v, hv, hoff⟩ := off
  cases lt_trichotomy u v with
  | inl h => exact ⟨u, v, side, h, hv, hon, hoff, rfl⟩
  | inr h =>
      cases h with
      | inl h => exact absurd (hon.symm.trans (h ▸ hoff)) Bool.true_eq_false.mp
      | inr h =>
          exact ⟨v, u, fun w => !side w, h, hu, by simp [hoff], by simp [hon],
            cutWeight_not edges side⟩

/-- Over whole weights a network of two nodes or more has a first cheapest cut, which is found; the
flows between its nodes end with the sink out of reach, and no loop ends for want of fuel. -/
theorem minimum_correct {n : Nat} {edges : List (Nat × Nat × Rat)} (hn : 2 ≤ n)
    (hin : ∀ e ∈ edges, e.1 < n ∧ e.2.1 < n) (hw : ∀ e ∈ edges, Whole e.2.2) :
    (∃ cut, minimum? n edges = some cut ∧ IsMinimum n edges cut) ∧
    (∀ s t, s < t → t < n → Parts n edges s t (between (Capacities.ofEdges n edges) s t) ∧
      Capacities.FlowEnds (Capacities.ofEdges n edges) s t) ∧
    ∀ (c : Capacities Rat) (source : Nat), source < c.nodes → c.SearchEnds source := by
  have entered := Capacities.entered_ofEdges hin hw
  have nodes := Capacities.nodes_ofEdges n edges
  have parts {s t : Nat} (hst : s < t) (ht : t < n) :
      Parts n edges s t (between (Capacities.ofEdges n edges) s t) :=
    parts_between entered hin (hst.trans ht) ht hst.ne'
  have whole (s t : Nat) (hst : s < t) (ht : t < n) :
      Whole (between (Capacities.ofEdges n edges) s t).value :=
    (feasible_maxFlow entered (hst.trans ht) hst.ne').whole
  refine ⟨?_, fun s t hst ht => ⟨parts hst ht, ?_⟩, fun c source hs => c.searchEnds hs⟩
  · obtain ⟨cut, found, source, precedes⟩ := minimum?_precedes hn whole
    refine ⟨cut, found, ?_, ?_, ?_, source, ?_⟩
    · obtain ⟨s, t, hst, ht, rfl⟩ := source
      exact (parts hst ht).proper
    · obtain ⟨s, t, hst, ht, rfl⟩ := source
      exact (parts hst ht).value
    · intro side on off
      obtain ⟨s, t, side', hst, ht, hon, hoff, same⟩ := exists_parted edges on off
      rw [← same]
      exact (precedes s t hst ht).value_le.trans ((parts hst ht).cheapest side' hon hoff)
    · intro s t hst ht heq
      cases precedes s t hst ht with
      | inl h => exact absurd heq h.ne'
      | inr h => exact h.2
  · exact Capacities.flowEnds entered.square (nodes.symm ▸ hst.trans ht) hst.ne'

/-- Three nodes in a row. -/
def row : List (Nat × Nat × Rat) := [(0, 1, 1), (1, 2, 1)]

theorem row_minimum_correct :
    (2 ≤ 3 ∧ (∀ e ∈ row, e.1 < 3 ∧ e.2.1 < 3) ∧ ∀ e ∈ row, Whole e.2.2) ∧
    (∃ cut, minimum? 3 row = some cut ∧ IsMinimum 3 row cut) ∧
    ∀ s t, s < t → t < 3 → Parts 3 row s t (between (Capacities.ofEdges 3 row) s t) ∧
      Capacities.FlowEnds (Capacities.ofEdges 3 row) s t := by
  have inside : ∀ e ∈ row, e.1 < 3 ∧ e.2.1 < 3 := by decide
  have whole : ∀ e ∈ row, Whole e.2.2 := by
    intro e he
    refine ⟨1, ?_⟩
    simp only [row, List.mem_cons, List.not_mem_nil, or_false] at he
    cases he with
    | inl h => simp [h]
    | inr h => simp [h]
  obtain ⟨found, cuts, -⟩ := minimum_correct (by decide) inside whole
  exact ⟨⟨by decide, inside, whole⟩, found, cuts⟩

example : (minimum? 3 row).map (fun cut => (cut.value, cut.labels)) = some (1, [0, 0, 1]) := by
  decide +kernel

end Cut
end HardwareLinker
