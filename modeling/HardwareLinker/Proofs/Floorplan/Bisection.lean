import Mathlib.Algebra.Order.Ring.Rat
import Mathlib.Data.Fintype.Prod
import Mathlib.Data.List.GetD
import Mathlib.Data.List.Sort
import Mathlib.Data.Prod.Lex
import HardwareLinker.Floorplan.Hints
import HardwareLinker.Proofs.Cut.Minimum
import HardwareLinker.Proofs.Milp.Feasible
import HardwareLinker.Proofs.Pairs

/-!
Bisection along a placement over exact numbers. The splits that are tried are told without the
sorting and the labels that are filled in step by step: a line is drawn between two placed members
in their order along an axis, and a member without a place goes where it talks to most. What is
returned is the first of these by its price and then by its labels, as long as prices are equal or
further apart than the tolerance.
-/

namespace HardwareLinker

/-- Over the rationals the absolute value is the absolute value. -/
theorem Scalar.abs_eq (x : Rat) : Scalar.abs x = |x| := by
  change Rat.abs x = |x|
  cases le_total 0 x with
  | inl above => rw [Rat.abs_of_nonneg above, abs_of_nonneg above]
  | inr below => rw [Rat.abs_of_nonpos below, abs_of_nonpos below]

namespace Floorplan.Guide

variable {h : Guide Rat} {members : List String} {traffic : List (Nat × Nat × Rat)}

/-! ### The splits -/

/-- The centre of the member at a position. -/
def place? (h : Guide Rat) (members : List String) (i : Nat) : Option (Rat × Rat) :=
  members[i]?.bind h.centre?

/-- What places are compared by along an axis: that coordinate, then the other one, then the
position. -/
def key (swap : Bool) (p : Nat × Rat × Rat) : Rat ×ₗ Rat ×ₗ Nat :=
  let place := if swap then p.2.swap else p.2
  toLex (place.1, toLex (place.2, p.1))

/-- The order of the placed members along an axis. -/
def Earlier (h : Guide Rat) (members : List String) (swap : Bool) (i j : Nat) : Prop :=
  ∃ p q, h.place? members i = some p ∧ h.place? members j = some q ∧
    key swap (i, p) < key swap (j, q)

/-- The traffic of a member with those on a side. -/
def talk (traffic : List (Nat × Nat × Rat)) (i : Nat) (side : List Nat) : Rat :=
  ((traffic.filter fun t => t.1 = i ∧ t.2.1 ∈ side ∨ t.2.1 = i ∧ t.1 ∈ side).map (·.2.2)).sum

/-- The labels of a line between the placed members in front of it and those behind it. -/
structure Parts (h : Guide Rat) (members : List String) (traffic : List (Nat × Nat × Rat))
    (front back : List Nat) (labels : List Nat) : Prop where
  length : labels.length = members.length
  inFront : ∀ i ∈ front, labels[i]? = some 0
  behind : ∀ i ∈ back, labels[i]? = some 1
  unplaced : ∀ i < members.length, h.place? members i = none →
    labels[i]? = some (if talk traffic i front < talk traffic i back then 1 else 0)

/-- A line between two of the placed members in their order along one of the axes. -/
def IsSplit (h : Guide Rat) (members : List String) (traffic : List (Nat × Nat × Rat))
    (labels : List Nat) : Prop :=
  ∃ swap front back, front ≠ [] ∧ back ≠ [] ∧
    (∀ i, i ∈ front ++ back ↔ (h.place? members i).isSome) ∧
    (front ++ back).Pairwise (h.Earlier members swap) ∧ h.Parts members traffic front back labels

/-! ### Places in order -/

theorem mem_placedMembers {i : Nat} {p : Rat × Rat} :
    (i, p) ∈ h.placedMembers members ↔ h.place? members i = some p := by
  rw [placedMembers, List.mem_filterMap, place?, Option.bind_eq_some_iff]
  constructor
  · intro ⟨(name, j), at_j, centre⟩
    obtain ⟨c, centre, same⟩ := Option.map_eq_some_iff.mp centre
    cases same
    exact ⟨name, List.mem_zipIdx_iff_getElem?.mp at_j, centre⟩
  · intro ⟨name, at_i, centre⟩
    exact ⟨(name, i), List.mem_zipIdx_iff_getElem?.mpr at_i,
      Option.map_eq_some_iff.mpr ⟨p, centre, rfl⟩⟩

theorem pairwise_placedMembers (h : Guide Rat) (members : List String) :
    (h.placedMembers members).Pairwise fun a b => a.1 ≠ b.1 := by
  rw [placedMembers, List.pairwise_filterMap]
  have positions : members.zipIdx.Pairwise fun a b => a.2 ≠ b.2 := by
    rw [← List.pairwise_map, List.zipIdx_map_snd]
    exact List.nodup_range'
  refine positions.imp fun {a b} different p at_a q at_b => ?_
  obtain ⟨_, -, rfl⟩ := Option.map_eq_some_iff.mp at_a
  obtain ⟨_, -, rfl⟩ := Option.map_eq_some_iff.mp at_b
  exact different

theorem length_placedMembers (h : Guide Rat) (members : List String) :
    (h.placedMembers members).length = members.countP fun name => (h.centre? name).isSome := by
  rw [placedMembers, List.length_filterMap_eq_countP]
  conv_rhs => rw [← List.zipIdx_map_fst 0 members, List.countP_map]
  simp [Function.comp_def]

/-- A later comparison counts where the one before it finds no difference. -/
theorem compareTotal_then (x y : Rat) (next : Ordering) :
    ((Scalar.compareTotal x y).then next != .gt) = true ↔ x < y ∨ x = y ∧ next ≠ .gt := by
  rw [bne_iff_ne]
  change ((if x < y then Ordering.lt else if y < x then .gt else .eq).then next) ≠ .gt ↔ _
  cases lt_trichotomy x y with
  | inl less => simp [less]
  | inr rest =>
      cases rest with
      | inl same => simp [same]
      | inr greater => simp [greater, greater.ne', greater.not_gt]

theorem before_iff (swap : Bool) (a b : Nat × Rat × Rat) :
    before swap a b = true ↔ key swap a ≤ key swap b := by
  have compared (x y : Rat × Rat) (i j : Nat) :
      ((((Scalar.compareTotal x.1 y.1).then (Scalar.compareTotal x.2 y.2)).then (compare i j)) !=
        .gt) = true ↔ toLex (x.1, toLex (x.2, i)) ≤ toLex (y.1, toLex (y.2, j)) := by
    rw [Ordering.then_assoc, compareTotal_then, ← bne_iff_ne, compareTotal_then,
      Prod.Lex.toLex_le_toLex, Prod.Lex.toLex_le_toLex, ne_eq, compare_gt_iff_gt, not_lt]
  cases swap with
  | false => exact compared a.2 b.2 a.1 b.1
  | true => exact compared a.2.swap b.2.swap a.1 b.1

theorem pairwise_along (h : Guide Rat) (members : List String) (swap : Bool) :
    (along swap (h.placedMembers members)).Pairwise (h.Earlier members swap) := by
  rw [along, List.pairwise_map]
  have sorted := List.pairwise_mergeSort (fun a b c hab hbc => (before_iff swap a c).mpr
    (((before_iff swap a b).mp hab).trans ((before_iff swap b c).mp hbc)))
    (fun a b => by rw [Bool.or_eq_true, before_iff, before_iff]; exact le_total _ _)
    (h.placedMembers members)
  have different :
      ((h.placedMembers members).mergeSort (before swap)).Pairwise fun a b => a.1 ≠ b.1 :=
    (List.mergeSort_perm _ _).symm.pairwise (pairwise_placedMembers h members) fun ne => ne.symm
  refine (List.pairwise_and_iff.mpr ⟨sorted, different⟩).imp_of_mem
    fun {a b} at_a at_b ⟨le, ne⟩ => ?_
  refine ⟨a.2, b.2, mem_placedMembers.mp (List.mem_mergeSort.mp at_a),
    mem_placedMembers.mp (List.mem_mergeSort.mp at_b),
    lt_of_le_of_ne ((before_iff swap a b).mp le) ?_⟩
  intro same
  exact ne (congrArg (fun k : Rat ×ₗ Rat ×ₗ Nat => (ofLex (ofLex k).2).2) same)

theorem mem_along {swap : Bool} {i : Nat} :
    i ∈ along swap (h.placedMembers members) ↔ (h.place? members i).isSome := by
  rw [along, List.mem_map, Option.isSome_iff_exists]
  constructor
  · intro ⟨(j, p), at_j, same⟩
    exact ⟨p, same ▸ mem_placedMembers.mp (List.mem_mergeSort.mp at_j)⟩
  · intro ⟨p, placed⟩
    exact ⟨(i, p), List.mem_mergeSort.mpr (mem_placedMembers.mpr placed), rfl⟩

/-- The placed members have one order along an axis. -/
theorem eq_along {swap : Bool} {order : List Nat}
    (all : ∀ i, i ∈ order ↔ (h.place? members i).isSome)
    (sorted : order.Pairwise (h.Earlier members swap)) :
    order = along swap (h.placedMembers members) := by
  have asymm {i j : Nat} (hij : h.Earlier members swap i j) : ¬ h.Earlier members swap j i := by
    obtain ⟨p, q, at_i, at_j, less⟩ := hij
    intro ⟨q', p', at_j', at_i', less'⟩
    cases at_i.symm.trans at_i'
    cases at_j.symm.trans at_j'
    exact lt_asymm less less'
  have : Std.Antisymm (h.Earlier members swap) := ⟨fun _ _ hij hji => absurd hji (asymm hij)⟩
  have : Std.Irrefl (h.Earlier members swap) := ⟨fun _ hii => asymm hii hii⟩
  exact sorted.eq_of_mem_iff (pairwise_along h members swap) fun i => (all i).trans mem_along.symm

/-! ### Labels filled in -/

theorem length_foldl_set {β γ : Type} (position : γ → Nat) (value : γ → β) (l : List γ)
    (labels : List β) :
    (l.foldl (fun labels e => labels.set (position e) (value e)) labels).length =
      labels.length := by
  induction l generalizing labels with
  | nil => rfl
  | cons e rest ih => rw [List.foldl_cons, ih, List.length_set]

/-- Positions that are all set to one value. -/
theorem getElem?_foldl_set {β γ : Type} (position : γ → Nat) (value : γ → β) {c : β} {l : List γ}
    (constant : ∀ e ∈ l, value e = c) {labels : List β} {i : Nat} (inside : i < labels.length) :
    (l.foldl (fun labels e => labels.set (position e) (value e)) labels)[i]? =
      if i ∈ l.map position then some c else labels[i]? := by
  induction l generalizing labels with
  | nil => simp
  | cons e rest ih =>
      obtain ⟨first, constant⟩ := List.forall_mem_cons.mp constant
      rw [List.foldl_cons, ih constant ((List.length_set).symm ▸ inside), List.getElem?_set, first]
      by_cases same : position e = i
      · simp [same, inside]
      · simp [same, Ne.symm same]

/-- The labels of the placed members alone. -/
def drawn (size : Nat) (order : List Nat) (k : Nat) : List (Option Nat) :=
  order.zipIdx.foldl (fun labels e => labels.set e.1 (some (if k ≤ e.2 then 1 else 0)))
    (List.replicate size none)

theorem getElem?_drawn {size i : Nat} (inside : i < size) (front back : List Nat) :
    (drawn size (front ++ back) front.length)[i]? = some (if i ∈ back then some 1
      else if i ∈ front then some 0 else none) := by
  let value (e : Nat × Nat) : Option Nat := some (if front.length ≤ e.2 then 1 else 0)
  -- the members in front are labelled first, then those behind
  have before : ∀ e ∈ front.zipIdx, value e = some 0 := by
    intro e he
    exact congrArg some (if_neg (Nat.not_le.mpr (List.mem_zipIdx' he).1))
  have behind : ∀ e ∈ back.zipIdx front.length, value e = some 1 := by
    intro e he
    exact congrArg some (if_pos (List.le_snd_of_mem_zipIdx he))
  have start : i < (List.replicate size (none : Option Nat)).length := by simpa using inside
  rw [drawn, List.zipIdx_append, List.foldl_append, Nat.zero_add,
    getElem?_foldl_set Prod.fst value behind ((length_foldl_set Prod.fst value _ _).symm ▸ start),
    getElem?_foldl_set Prod.fst value before start, List.zipIdx_map_fst, List.zipIdx_map_fst,
    List.getElem?_replicate, if_pos inside]
  split
  · rfl
  · split <;> rfl

theorem pull_eq {labels : List (Option Nat)} {i side : Nat} {members : List Nat}
    (free : labels.getD i none = none)
    (on : ∀ j, labels.getD j none = some side ↔ j ∈ members) :
    pull labels traffic i side = talk traffic i members := by
  have absent : i ∉ members := fun at_i => by
    have := (on i).mpr at_i
    rw [free] at this
    cases this
  -- the entry counts for the one of its ends that is not the member itself
  have counts (a b : Nat) :
      (((if a == i then some b else if b == i then some a else none).bind (labels.getD · none)) ==
        some side) = true ↔ a = i ∧ b ∈ members ∨ b = i ∧ a ∈ members := by
    rw [beq_iff_eq]
    by_cases first : a = i
    · simpa [first, absent] using on b
    · by_cases second : b = i
      · simpa [first, second] using on a
      · simp [first, second]
  have fold (sum : Rat) : traffic.foldl (fun sum (a, b, w) =>
      let other := if a == i then some b else if b == i then some a else none
      if other.bind (labels.getD · none) == some side then sum + w else sum) sum =
        sum + talk traffic i members := by
    induction traffic generalizing sum with
    | nil => simp [talk]
    | cons t rest ih =>
        rw [List.foldl_cons, ih]
        simp only [counts, talk, List.filter_cons, decide_eq_true_eq]
        split
        · rw [List.map_cons, List.sum_cons, add_assoc]
        · rfl
  exact (fold 0).trans (zero_add _)

theorem getElem?_assignUnplaced (labels : List (Option Nat)) (i : Nat) :
    (assignUnplaced labels traffic)[i]? = labels[i]?.map fun l =>
      l.getD (if pull labels traffic i 0 < pull labels traffic i 1 then 1 else 0) := by
  rw [assignUnplaced, List.getElem?_map, List.getElem?_zipIdx, Option.map_map, Nat.zero_add]
  rfl

/-- What is tried is drawn between the members in front and those behind. -/
theorem parts_splitAfter (traffic : List (Nat × Nat × Rat)) (front back : List Nat)
    (all : ∀ i, i ∈ front ++ back ↔ (h.place? members i).isSome)
    (distinct : (front ++ back).Nodup) : h.Parts members traffic front back
      (splitAfter members.length (front ++ back) traffic front.length) := by
  change h.Parts members traffic front back
    (assignUnplaced (drawn members.length (front ++ back) front.length) traffic)
  obtain ⟨-, -, apart⟩ := List.nodup_append.mp distinct
  have within {i : Nat} (at_i : i ∈ front ++ back) : i < members.length := by
    obtain ⟨p, placed⟩ := Option.isSome_iff_exists.mp ((all i).mp at_i)
    obtain ⟨name, at_i, -⟩ := Option.bind_eq_some_iff.mp placed
    exact (List.getElem?_eq_some_iff.mp at_i).1
  have drawn_length :
      (drawn members.length (front ++ back) front.length).length = members.length := by
    rw [drawn]
    exact (length_foldl_set Prod.fst _ _ _).trans List.length_replicate
  refine ⟨?_, ?_, ?_, ?_⟩
  · rw [assignUnplaced, List.length_map, List.length_zipIdx, drawn_length]
  · intro i at_i
    have behind : i ∉ back := fun at_back => apart i at_i i at_back rfl
    rw [getElem?_assignUnplaced, getElem?_drawn (within (List.mem_append_left _ at_i)),
      if_neg behind, if_pos at_i]
    rfl
  · intro i at_i
    rw [getElem?_assignUnplaced, getElem?_drawn (within (List.mem_append_right _ at_i)),
      if_pos at_i]
    rfl
  · intro i inside unplaced
    have nowhere : i ∉ front ++ back := by
      rw [all, unplaced]
      exact Bool.false_ne_true
    rw [List.mem_append, not_or] at nowhere
    have free : (drawn members.length (front ++ back) front.length)[i]? = some none := by
      rw [getElem?_drawn inside, if_neg nowhere.2, if_neg nowhere.1]
    have label (j : Nat) : (drawn members.length (front ++ back) front.length).getD j none =
        if j ∈ back then some 1 else if j ∈ front then some 0 else none := by
      by_cases inside : j < members.length
      · rw [List.getD_eq_getElem?_getD, getElem?_drawn inside, Option.getD_some]
      · have outside : j ∉ front ++ back := fun at_j => inside (within at_j)
        rw [List.mem_append, not_or] at outside
        rw [List.getD_eq_default _ _ (by rw [drawn_length]; exact Nat.not_lt.mp inside),
          if_neg outside.2, if_neg outside.1]
    have on_front (j : Nat) :
        (drawn members.length (front ++ back) front.length).getD j none = some 0 ↔ j ∈ front := by
      rw [label]
      by_cases at_back : j ∈ back
      · simpa [at_back] using fun at_front => apart j at_front j at_back rfl
      · simp [at_back]
    have on_back (j : Nat) :
        (drawn members.length (front ++ back) front.length).getD j none = some 1 ↔ j ∈ back := by
      rw [label]
      by_cases at_back : j ∈ back
      · simp [at_back]
      · simp [at_back]
    rw [getElem?_assignUnplaced, free,
      pull_eq (by rw [List.getD_eq_getElem?_getD, free]; rfl) on_front,
      pull_eq (by rw [List.getD_eq_getElem?_getD, free]; rfl) on_back]
    rfl

/-- The line settles all labels. -/
theorem Parts.unique {front back : List Nat} {labels labels' : List Nat}
    (all : ∀ i, i ∈ front ++ back ↔ (h.place? members i).isSome)
    (hl : h.Parts members traffic front back labels)
    (hl' : h.Parts members traffic front back labels') : labels = labels' := by
  apply List.ext_getElem?
  intro i
  by_cases inside : i < members.length
  · cases placed : h.place? members i with
    | none => rw [hl.unplaced i inside placed, hl'.unplaced i inside placed]
    | some p =>
        cases List.mem_append.mp ((all i).mpr (by rw [placed]; rfl)) with
        | inl at_front => rw [hl.inFront i at_front, hl'.inFront i at_front]
        | inr at_back => rw [hl.behind i at_back, hl'.behind i at_back]
  · rw [List.getElem?_eq_none (hl.length ▸ Nat.not_lt.mp inside),
      List.getElem?_eq_none (hl'.length ▸ Nat.not_lt.mp inside)]

theorem mem_candidates {labels : List Nat} :
    labels ∈ candidates members.length (h.placedMembers members) traffic ↔
      h.IsSplit members traffic labels := by
  have tried : labels ∈ candidates members.length (h.placedMembers members) traffic ↔ ∃ swap k,
      1 ≤ k ∧ k < (along swap (h.placedMembers members)).length ∧
      splitAfter members.length (along swap (h.placedMembers members)) traffic k = labels := by
    simp only [candidates, List.mem_flatMap, List.mem_map, List.mem_range'_1]
    constructor
    · intro ⟨swap, _, k, range, drawn⟩
      exact ⟨swap, k, range.1, by omega, drawn⟩
    · intro ⟨swap, k, low, high, drawn⟩
      exact ⟨swap, by cases swap <;> simp, k, ⟨low, by omega⟩, drawn⟩
  have nodup (swap : Bool) : (along swap (h.placedMembers members)).Nodup :=
    (pairwise_along h members swap).imp fun ⟨p, q, at_i, at_j, less⟩ same => by
      cases same
      cases at_i.symm.trans at_j
      exact lt_irrefl _ less
  rw [tried]
  constructor
  · intro ⟨swap, k, low, high, drawn⟩
    have order := List.take_append_drop k (along swap (h.placedMembers members))
    refine ⟨swap, (along swap (h.placedMembers members)).take k,
      (along swap (h.placedMembers members)).drop k, ?_, ?_, ?_, ?_, ?_⟩
    · exact List.ne_nil_of_length_pos (by rw [List.length_take]; omega)
    · exact List.ne_nil_of_length_pos (by rw [List.length_drop]; omega)
    · rw [order]
      exact fun _ => mem_along
    · rw [order]
      exact pairwise_along h members swap
    · have parts := parts_splitAfter traffic ((along swap (h.placedMembers members)).take k)
        ((along swap (h.placedMembers members)).drop k)
        (by rw [order]; exact fun _ => mem_along) (by rw [order]; exact nodup swap)
      rwa [order, List.length_take_of_le high.le, drawn] at parts
  · intro ⟨swap, front, back, some_front, some_back, all, sorted, parts⟩
    have order := eq_along all sorted
    refine ⟨swap, front.length, List.length_pos_of_ne_nil some_front, ?_, ?_⟩
    · rw [← order, List.length_append]
      exact Nat.lt_add_of_pos_right (List.length_pos_of_ne_nil some_back)
    · have drawn := parts_splitAfter traffic front back all (order ▸ nodup swap)
      rw [← order]
      exact drawn.unique all parts

/-! ### Prices -/

/-- The pairs of related members that are on different sides. -/
def partedPairs (h : Guide Rat) (members : List String) (labels : List Nat) :
    Finset (Fin members.length × Fin members.length) :=
  Finset.univ.filter fun e =>
    e.1 < e.2 ∧ labels[e.1.val]? ≠ labels[e.2.val]? ∧ h.related members[e.1] members[e.2]

/-- The sides of the members among the carriers of a chain. -/
def ringSides (members : List String) (labels : List Nat) (carriers : List String) : List Nat :=
  carriers.filterMap fun name => (members.idxOf? name).bind (labels[·]?)

/-- The places of a ring whose successor is on the other side. -/
def ringBreaks (ring : List Nat) : Nat :=
  (List.range ring.length).countP fun i => ring[i]? ≠ ring[(i + 1) % ring.length]?

/-- The mean traffic, one where there is none. -/
def meanTraffic (traffic : List (Nat × Nat × Rat)) : Rat :=
  if traffic = [] then 1 else (traffic.map (·.2.2)).sum / traffic.length

/-- What a split costs: the traffic that it cuts, its weight for each related pair that it parts,
and the mean traffic for each member that one side has more than the other and for each broken place
of a chain. -/
def price (h : Guide Rat) (members : List String) (traffic : List (Nat × Nat × Rat))
    (labels : List Nat) : Rat :=
  cutWeight traffic (labels[·]?) + h.parentChildWeight * (h.partedPairs members labels).card +
    meanTraffic traffic * (|(labels.count 0 : Rat) - labels.count 1| +
      (h.chains.values.map fun carriers => ringBreaks (ringSides members labels carriers)).sum)

theorem addTimes_eq (w : Rat) (n : Nat) : addTimes w n = w * n := by
  induction n with
  | zero => simp [addTimes]
  | succ n ih =>
      rw [addTimes, ih]
      push_cast
      ring

/-- What is counted over the pairs of a list is counted over the pairs of its positions. -/
theorem countP_orderedPairs_finRange {n : Nat} {β : Type} (f : Fin n → β) (p : β × β → Bool) :
    (orderedPairs ((List.finRange n).map f)).countP p =
      (Finset.univ.filter fun e : Fin n × Fin n => e.1 < e.2 ∧ p (f e.1, f e.2)).card := by
  have ascending : (List.finRange n).Pairwise (· < ·) := List.pairwise_lt_finRange n
  have distinct : (orderedPairs (List.finRange n)).Nodup :=
    (pairwise_orderedPairs ascending).imp fun apart same => by
      subst same
      cases apart with
      | inl less => exact lt_irrefl _ less
      | inr less => exact lt_irrefl _ less.2
  have member (e : Fin n × Fin n) : e ∈ orderedPairs (List.finRange n) ↔ e.1 < e.2 := by
    constructor
    · exact rel_of_mem_orderedPairs ascending
    · intro less
      have total := orderedPairs_total (List.mem_finRange e.1) (List.mem_finRange e.2) less.ne
      exact total.resolve_right fun back => lt_asymm less (rel_of_mem_orderedPairs ascending back)
  rw [orderedPairs_map, List.countP_map, List.countP_eq_length_filter,
    ← List.toFinset_card_of_nodup (distinct.filter _)]
  congr 1
  ext e
  rw [List.mem_toFinset, List.mem_filter, member, Finset.mem_filter]
  simp [Prod.map]

theorem partedFamilies_eq {labels : List Nat} (length : labels.length = members.length) :
    h.partedFamilies members labels = (h.partedPairs members labels).card := by
  have zipped : members.zip labels =
      (List.finRange members.length).map fun i => (members[i], labels.get ⟨i.val, by omega⟩) := by
    apply List.ext_getElem
    · simp [length]
    · intro i _ _
      simp
  rw [partedFamilies, zipped, countP_orderedPairs_finRange, partedPairs]
  congr 1
  ext e
  simp [List.getElem?_eq_getElem (show e.1.val < labels.length by omega),
    List.getElem?_eq_getElem (show e.2.val < labels.length by omega)]

theorem changes_eq (ring : List Nat) : changes ring = ringBreaks ring := by
  have next : ring.zip (ring.tail ++ ring.take 1) = (List.finRange ring.length).map fun i =>
      (ring[i], ring.get ⟨(i.val + 1) % ring.length, Nat.mod_lt _ i.pos⟩) := by
    have turned : ring.tail ++ ring.take 1 = ring.rotate 1 := by
      cases ring with
      | nil => rfl
      | cons first rest =>
          rw [List.rotate_eq_drop_append_take (Nat.succ_pos rest.length), List.drop_one]
    apply List.ext_getElem
    · simp [turned]
    · intro i _ _
      simp [turned, List.getElem_rotate]
  have counted :
      ringBreaks ring = (ring.zip (ring.tail ++ ring.take 1)).countP fun e => e.1 != e.2 := by
    rw [next, List.countP_map, ringBreaks, ← List.map_coe_finRange_eq_range, List.countP_map]
    apply List.countP_congr
    intro i _
    simp [List.getElem?_eq_getElem (Nat.mod_lt (i.val + 1) i.pos)]
  rw [changes, counted]
  split
  · next short =>
    cases ring with
    | nil => rfl
    | cons first rest =>
        have alone : rest = [] :=
          List.eq_nil_of_length_eq_zero (Nat.lt_one_iff.mp (Nat.lt_of_succ_lt_succ short))
        subst alone
        simp
  · rfl

theorem sideOf?_eq (distinct : members.Nodup) {labels : List Nat}
    (length : labels.length = members.length) (name : String) :
    sideOf? members labels name = (members.idxOf? name).bind (labels[·]?) := by
  induction members generalizing labels with
  | nil => rfl
  | cons m rest ih =>
      cases labels with
      | nil => cases length
      | cons l labels =>
          obtain ⟨fresh, distinct⟩ := List.nodup_cons.mp distinct
          have ih := ih distinct (Nat.succ.inj length)
          rw [sideOf?] at ih ⊢
          rw [List.zip_cons_cons, List.reverse_cons, List.find?_append, Option.map_or, ih,
            List.idxOf?_cons]
          by_cases same : m = name
          · rw [List.idxOf?_eq_none_iff.mpr (same ▸ fresh)]
            simp [same]
          · simp [same, Option.bind_map]

theorem cost_eq_price (distinct : members.Nodup) {labels : List Nat}
    (length : labels.length = members.length) (sides : ∀ l ∈ labels, l = 0 ∨ l = 1)
    (inside : ∀ t ∈ traffic, t.1 < members.length ∧ t.2.1 < members.length) :
    h.cost members labels traffic = h.price members traffic labels := by
  have cross : Scalar.sum ((traffic.filter fun t =>
      label labels t.1 != label labels t.2.1).map fun t => t.2.2) =
        cutWeight traffic (labels[·]?) := by
    rw [Scalar.sum_eq, cutWeight]
    induction traffic with
    | nil => rfl
    | cons t rest ih =>
        obtain ⟨ends, inside⟩ := List.forall_mem_cons.mp inside
        have apart :
            (label labels t.1 != label labels t.2.1) = !decide (labels[t.1]? = labels[t.2.1]?) := by
          simp [label, List.getElem?_eq_getElem (length ▸ ends.1 : t.1 < labels.length),
            List.getElem?_eq_getElem (length ▸ ends.2 : t.2.1 < labels.length), bne,
            Bool.beq_eq_decide_eq]
        rw [List.map_cons, List.sum_cons, ← ih inside, List.filter_cons, apart]
        by_cases same : labels[t.1]? = labels[t.2.1]? <;> simp [same]
  have mean : unit traffic = meanTraffic traffic := by
    rw [unit, meanTraffic, Scalar.sum_eq]
    simp only [List.isEmpty_iff]
    rfl
  have imbalance :
      Scalar.abs ((Scalar.ofNat labels.length : Rat) - 2.0 * Scalar.ofNat (labels.count 1)) =
      |(labels.count 0 : Rat) - labels.count 1| := by
    have all : labels.length = labels.count 0 + labels.count 1 := by
      have others : labels.countP (fun l => decide (¬(l == 0) = true)) = labels.count 1 := by
        apply List.countP_congr
        intro l at_l
        cases sides l at_l with
        | inl zero => simp [zero]
        | inr one => simp [one]
      rw [← others]
      exact List.length_eq_countP_add_countP (· == 0)
    have two : (2.0 : Rat) = 2 := by norm_num
    rw [Scalar.abs_eq, all]
    change |((labels.count 0 + labels.count 1 : Nat) : Rat) -
      (2.0 : Rat) * (labels.count 1 : Rat)| = _
    rw [two]
    refine congrArg abs ?_
    push_cast
    ring
  have broken : h.brokenSegments members labels =
      (h.chains.values.map fun carriers => ringBreaks (ringSides members labels carriers)).sum := by
    have side : sideOf? members labels = fun name => (members.idxOf? name).bind (labels[·]?) :=
      funext (sideOf?_eq distinct length)
    rw [brokenSegments, List.sum_eq_foldl, List.foldl_map]
    simp only [changes_eq, side, ringSides]
  change Scalar.sum _ + addTimes h.parentChildWeight (h.partedFamilies members labels) +
    unit traffic * (Scalar.abs _ + ((h.brokenSegments members labels : Nat) : Rat)) = _
  rw [cross, addTimes_eq, partedFamilies_eq length, mean, imbalance, broken]
  rfl

/-! ### The cheapest split -/

/-- No two splits have prices that differ by as little as the tolerance. -/
def Separated (h : Guide Rat) (members : List String) (traffic : List (Nat × Nat × Rat)) : Prop :=
  ∀ a b, h.IsSplit members traffic a → h.IsSplit members traffic b →
    h.price members traffic a = h.price members traffic b ∨
      1e-9 < |h.price members traffic a - h.price members traffic b|

/-- The first of two splits by price and then by labels. -/
def First (a b : Rat × List Nat) : Prop := Cut.Precedes ⟨a.1, a.2⟩ ⟨b.1, b.2⟩

theorem first_refl (a : Rat × List Nat) : First a a := .inr ⟨rfl, le_refl _⟩

/-- Two prices that the tolerance does not confuse. -/
def Apart (a b : Rat × List Nat) : Prop := a.1 = b.1 ∨ 1e-9 < |a.1 - b.1|

theorem replaces_iff {a b : Rat × List Nat} (apart : Apart a b) :
    (decide (a.1 < b.1 - 1e-9) || (decide (Scalar.abs (a.1 - b.1) ≤ 1e-9) && decide (a.2 < b.2))) =
      true ↔ a.1 < b.1 ∨ a.1 = b.1 ∧ a.2 < b.2 := by
  have small : (0 : Rat) < 1e-9 := by norm_num
  rw [Bool.or_eq_true, Bool.and_eq_true, decide_eq_true_eq, decide_eq_true_eq, decide_eq_true_eq,
    Scalar.abs_eq]
  cases apart with
  | inl same => simp [same, small.le]
  | inr apart =>
      have differ : a.1 ≠ b.1 := by
        intro same
        rw [same, sub_self, abs_zero] at apart
        exact lt_asymm apart small
      simp only [differ, false_and, or_false, not_le.mpr apart]
      cases lt_abs.mp apart with
      | inl above => constructor <;> intro <;> linarith
      | inr below => constructor <;> intro <;> linarith

/-- One of two splits is picked, the first one if their prices are apart. -/
theorem pick_first (a b : Rat × List Nat) :
    ∃ m, pick (some b) a = some m ∧ (m = a ∨ m = b) ∧ (Apart a b → First m a ∧ First m b) := by
  rw [pick]
  split
  · next wins =>
    refine ⟨a, rfl, .inl rfl, fun apart => ⟨first_refl a, ?_⟩⟩
    exact ((replaces_iff apart).mp wins).imp_right fun tie => ⟨tie.1, le_of_lt tie.2⟩
  · next loses =>
    refine ⟨b, rfl, .inr rfl, fun apart => ⟨?_, first_refl b⟩⟩
    rw [replaces_iff apart, not_or, not_and, not_lt, not_lt] at loses
    cases lt_or_eq_of_le loses.1 with
    | inl less => exact .inl less
    | inr same => exact .inr ⟨same, loses.2 same.symm⟩

/-- Picking all along keeps one of the splits, the first one if all their prices are apart. -/
theorem foldl_pick (splits : List (Rat × List Nat)) (b : Rat × List Nat) :
    ∃ m, splits.foldl pick (some b) = some m ∧ m ∈ b :: splits ∧
      ((∀ a ∈ b :: splits, ∀ c ∈ b :: splits, Apart a c) → ∀ a ∈ b :: splits, First m a) := by
  induction splits generalizing b with
  | nil =>
      exact ⟨b, rfl, List.mem_cons_self, fun _ a at_a => List.mem_singleton.mp at_a ▸ first_refl b⟩
  | cons a rest ih =>
      obtain ⟨c, picked, from_two, first_two⟩ := pick_first a b
      have kept : c :: rest ⊆ b :: a :: rest := by
        intro d at_d
        cases List.mem_cons.mp at_d with
        | inl same =>
            cases from_two with
            | inl at_a => simp [same, at_a]
            | inr at_b => simp [same, at_b]
        | inr later => simp [later]
      obtain ⟨m, found, at_m, first⟩ := ih c
      refine ⟨m, by rw [List.foldl_cons, picked, found], kept at_m, fun apart d at_d => ?_⟩
      have first := first fun d at_d e at_e => apart d (kept at_d) e (kept at_e)
      obtain ⟨first_a, first_b⟩ := first_two (apart a (by simp) b (by simp))
      have first_c := first c List.mem_cons_self
      cases List.mem_cons.mp at_d with
      | inl same => exact same ▸ first_c.trans first_b
      | inr at_d =>
          cases List.mem_cons.mp at_d with
          | inl same => exact same ▸ first_c.trans first_a
          | inr later => exact first d (List.mem_cons_of_mem c later)

theorem Parts.sides {front back labels : List Nat}
    (all : ∀ i, i ∈ front ++ back ↔ (h.place? members i).isSome)
    (parts : h.Parts members traffic front back labels) : ∀ l ∈ labels, l = 0 ∨ l = 1 := by
  intro l at_l
  obtain ⟨i, inside, at_i⟩ := List.mem_iff_getElem.mp at_l
  have at_i : labels[i]? = some l := List.getElem?_eq_some_iff.mpr ⟨inside, at_i⟩
  cases placed : h.place? members i with
  | none =>
      have chosen := at_i.symm.trans (parts.unplaced i (parts.length ▸ inside) placed)
      split at chosen
      · exact .inr (Option.some.inj chosen)
      · exact .inl (Option.some.inj chosen)
  | some p =>
      cases List.mem_append.mp ((all i).mpr (by rw [placed]; rfl)) with
      | inl at_front => exact .inl (Option.some.inj (at_i.symm.trans (parts.inFront i at_front)))
      | inr at_back => exact .inr (Option.some.inj (at_i.symm.trans (parts.behind i at_back)))

/-- A split leaves neither side empty. -/
theorem IsSplit.proper {labels : List Nat} (split : h.IsSplit members traffic labels) :
    labels.length = members.length ∧ (∀ l ∈ labels, l = 0 ∨ l = 1) ∧ 0 ∈ labels ∧ 1 ∈ labels := by
  obtain ⟨swap, front, back, some_front, some_back, all, -, parts⟩ := split
  obtain ⟨i, at_front⟩ := List.exists_mem_of_ne_nil front some_front
  obtain ⟨j, at_back⟩ := List.exists_mem_of_ne_nil back some_back
  exact ⟨parts.length, parts.sides all, List.mem_of_getElem? (parts.inFront i at_front),
    List.mem_of_getElem? (parts.behind j at_back)⟩

/-- Bisection has no opinion where fewer than two members have a centre; elsewhere it returns a
split with no empty side, and no split is cheaper than it or as cheap with lesser labels unless the
prices of two splits differ by no more than the tolerance. -/
theorem bisect_cheapest (distinct : members.Nodup)
    (inside : ∀ t ∈ traffic, t.1 < members.length ∧ t.2.1 < members.length) :
    (h.bisect members traffic = none ↔ members.countP (fun name => (h.centre? name).isSome) < 2) ∧
    ∀ labels, h.bisect members traffic = some labels →
      labels.length = members.length ∧ (∀ l ∈ labels, l = 0 ∨ l = 1) ∧ 0 ∈ labels ∧ 1 ∈ labels ∧
      h.IsSplit members traffic labels ∧
      (h.Separated members traffic → ∀ other, h.IsSplit members traffic other →
        ¬ h.price members traffic other < h.price members traffic labels ∧
        (h.price members traffic other = h.price members traffic labels → ¬ other < labels)) := by
  rw [← length_placedMembers]
  by_cases few : (h.placedMembers members).length < 2
  · have none : h.bisect members traffic = none := if_pos few
    simp [none, few]
  · have tried : candidates members.length (h.placedMembers members) traffic ≠ [] := by
      have length :
          (along false (h.placedMembers members)).length = (h.placedMembers members).length := by
        rw [along, List.length_map, List.length_mergeSort]
      simp only [candidates, List.flatMap_cons, ne_eq, List.append_eq_nil_iff, List.map_eq_nil_iff,
        List.range'_eq_nil_iff, length]
      omega
    obtain ⟨first, rest, tried⟩ := List.exists_cons_of_ne_nil tried
    let entry (labels : List Nat) : Rat × List Nat := (h.cost members labels traffic, labels)
    have searched : h.bisect members traffic =
        ((rest.map entry).foldl pick (some (entry first))).map Prod.snd := by
      rw [bisect, if_neg few, tried]
      rfl
    have is_split {labels : List Nat} (at_labels : labels ∈ first :: rest) :
        h.IsSplit members traffic labels := mem_candidates.mp (tried ▸ at_labels)
    have priced {labels : List Nat} (split : h.IsSplit members traffic labels) :
        (entry labels).1 = h.price members traffic labels :=
      cost_eq_price distinct split.proper.1 split.proper.2.1 inside
    obtain ⟨m, found, at_m, least⟩ := foldl_pick (rest.map entry) (entry first)
    obtain ⟨labels, at_labels, rfl⟩ := List.mem_map.mp ((List.map_cons (f := entry)).symm ▸ at_m)
    have answer : h.bisect members traffic = some labels := by rw [searched, found]; rfl
    refine ⟨by simp [answer, few], fun labels' same => ?_⟩
    cases Option.some.inj (answer.symm.trans same)
    have split := is_split at_labels
    refine ⟨split.proper.1, split.proper.2.1, split.proper.2.2.1, split.proper.2.2.2, split, ?_⟩
    intro separated other other_split
    have apart : ∀ a ∈ entry first :: rest.map entry, ∀ c ∈ entry first :: rest.map entry,
        Apart a c := by
      rw [← List.map_cons]
      intro a at_a c at_c
      obtain ⟨x, at_x, rfl⟩ := List.mem_map.mp at_a
      obtain ⟨y, at_y, rfl⟩ := List.mem_map.mp at_c
      rw [Apart, priced (is_split at_x), priced (is_split at_y)]
      exact separated x y (is_split at_x) (is_split at_y)
    have precedes : First (entry labels) (entry other) :=
      least apart (entry other) (by
        rw [← List.map_cons, ← tried]
        exact List.mem_map_of_mem (mem_candidates.mpr other_split))
    rw [← priced split, ← priced other_split]
    refine ⟨not_lt.mpr precedes.value_le, fun tie => ?_⟩
    cases precedes with
    | inl less => exact absurd tie less.ne'
    | inr same => exact not_lt.mpr same.2

/-- Four groups in a row, and two chains through the first and the third. -/
def rowGuide : Guide Rat where
  plan := {
    chip := ⟨100, 100⟩
    groups := [("a", 10), ("b", 40), ("c", 60), ("d", 90)].foldl (fun groups (name, x) =>
      groups.insert name { name, area := 100, x := some x, y := some 50 }) .empty }
  parentChildWeight := 100
  bufferDistance := 10
  chains := (NameMap.empty.insert "dbg" ["a", "c"]).insert "stats" ["a", "c"]

def rowMembers : List String := ["a", "b", "c", "d"]

/-- Both axes sort the row from left to right. -/
theorem candidates_row : candidates rowMembers.length (rowGuide.placedMembers rowMembers) [] =
    [[0, 1, 1, 1], [0, 0, 1, 1], [0, 0, 0, 1], [0, 1, 1, 1], [0, 0, 1, 1], [0, 0, 0, 1]] := by
  have sorted (swap : Bool) : along swap (rowGuide.placedMembers rowMembers) = [0, 1, 2, 3] := by
    have pairwise :
        (rowGuide.placedMembers rowMembers).Pairwise fun a b => before swap a b = true := by
      cases swap <;> decide +kernel
    rw [along, List.mergeSort_of_pairwise pairwise]
    decide +kernel
  rw [candidates]
  simp only [sorted]
  decide +kernel

/-- An even split would break both chains twice. -/
theorem bisect_cheapest_row : rowMembers.Nodup ∧
    rowGuide.bisect rowMembers [] = some [0, 0, 0, 1] ∧ rowGuide.Separated rowMembers [] ∧
    ∀ other, rowGuide.IsSplit rowMembers [] other →
      ¬ rowGuide.price rowMembers [] other < rowGuide.price rowMembers [] [0, 0, 0, 1] := by
  have distinct : rowMembers.Nodup := by decide
  have answer : rowGuide.bisect rowMembers [] = some [0, 0, 0, 1] := by
    rw [bisect, candidates_row]
    decide +kernel
  have costs : ∀ a ∈ candidates rowMembers.length (rowGuide.placedMembers rowMembers) [],
      ∀ b ∈ candidates rowMembers.length (rowGuide.placedMembers rowMembers) [],
      rowGuide.cost rowMembers a [] = rowGuide.cost rowMembers b [] ∨
        1e-9 < (rowGuide.cost rowMembers a [] - rowGuide.cost rowMembers b []).abs := by
    rw [candidates_row]
    decide +kernel
  have priced {labels : List Nat} (split : rowGuide.IsSplit rowMembers [] labels) :
      rowGuide.cost rowMembers labels [] = rowGuide.price rowMembers [] labels :=
    cost_eq_price distinct split.proper.1 split.proper.2.1 (List.forall_mem_nil _)
  have separated : rowGuide.Separated rowMembers [] := by
    intro a b split_a split_b
    have apart := costs a (mem_candidates.mpr split_a) b (mem_candidates.mpr split_b)
    rw [priced split_a, priced split_b] at apart
    exact apart.imp_right fun less => Scalar.abs_eq _ ▸ less
  obtain ⟨-, settled⟩ := bisect_cheapest (h := rowGuide) distinct (List.forall_mem_nil _)
  obtain ⟨-, -, -, -, -, least⟩ := settled _ answer
  exact ⟨distinct, answer, separated, fun other split => (least separated other split).1⟩

end Floorplan.Guide
end HardwareLinker
