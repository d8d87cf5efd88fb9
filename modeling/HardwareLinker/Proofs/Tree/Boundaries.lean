import Mathlib.Algebra.GroupWithZero.Nat
import HardwareLinker.Proofs.Tree.Growth
import HardwareLinker.Tree.Report

/-!
Synthesis boundaries. The threshold has no say in how a tree grows; it decides which nodes are
boundaries and how many rules each node passes on. So trees for two thresholds differ in these marks
only, and all that is said about boundaries follows from how the marks of a node come from those of
its children. A boundary that falls away may bring another one about further up, but never two.
-/

namespace HardwareLinker.MergeTree

variable {α : Type}

/-- The tree with its rules counted and its boundaries drawn anew. -/
def weigh (threshold : Nat) (root : Bool) : MergeTree α → MergeTree α
  | merge i links _ _ left right =>
    let left := left.weigh threshold false
    let right := right.weigh threshold false
    let rules := i.localRuleCount + left.exported + right.exported
    let boundary := root || threshold < rules
    merge i links (if boundary then 0 else rules) boundary left right
  | t => t

/-- The tree without counts and boundaries: its shape, names, ports and links. -/
def bare : MergeTree α → MergeTree α
  | merge i links _ _ left right => merge i links 0 false left.bare right.bare
  | t => t

/-- The merge nodes that can be reached from the top without entering a boundary. -/
def region : MergeTree α → List (MergeTree α)
  | t@(merge _ _ _ _ left right) =>
    t :: ((if left.isBoundary then [] else left.region) ++
      if right.isBoundary then [] else right.region)
  | _ => []

def regionRules (t : MergeTree α) : Nat := (t.region.map (·.interface.localRuleCount)).sum

@[simp] theorem exported_merge (i : Interface α) (links : List Link) (exported : Nat)
    (boundary : Bool) (left right : MergeTree α) :
    (merge i links exported boundary left right).exported = exported := rfl

@[simp] theorem isBoundary_merge (i : Interface α) (links : List Link) (exported : Nat)
    (boundary : Bool) (left right : MergeTree α) :
    (merge i links exported boundary left right).isBoundary = boundary := rfl

@[simp] theorem length_boundaries_merge (i : Interface α) (links : List Link) (exported : Nat)
    (boundary : Bool) (left right : MergeTree α) :
    (merge i links exported boundary left right).boundaries.length =
      boundary.toNat + left.boundaries.length + right.boundaries.length := by
  cases boundary <;> simp [boundaries, preorder, List.filter_cons]
  omega

@[simp] theorem regionRules_merge (i : Interface α) (links : List Link) (exported : Nat)
    (boundary : Bool) (left right : MergeTree α) :
    (merge i links exported boundary left right).regionRules =
      i.localRuleCount + (if left.isBoundary then 0 else left.regionRules) +
        if right.isBoundary then 0 else right.regionRules := by
  unfold regionRules
  rw [region, List.map_cons, List.map_append, List.sum_cons, List.sum_append]
  cases left.isBoundary <;> cases right.isBoundary <;> simp [interface, Nat.add_assoc]

/-! ### Marks and shape -/

theorem interface_weigh (threshold : Nat) (root : Bool) (t : MergeTree α) :
    (t.weigh threshold root).interface = t.interface := by
  cases t <;> rfl

theorem bare_weigh (threshold : Nat) (root : Bool) (t : MergeTree α) :
    (t.weigh threshold root).bare = t.bare := by
  induction t generalizing root with
  | module i => rfl
  | placeholder name => rfl
  | merge i links exported boundary left right ihl ihr => simp only [weigh, bare, ihl, ihr]

theorem names_weigh (threshold : Nat) (root : Bool) (t : MergeTree α) :
    (t.weigh threshold root).preorder.map (·.name) = t.preorder.map (·.name) := by
  induction t generalizing root with
  | module i => rfl
  | placeholder name => rfl
  | merge i links exported boundary left right ihl ihr =>
      simp only [weigh, preorder, List.map_cons, List.map_append, ihl, ihr]
      rfl

theorem moduleNames_weigh (threshold : Nat) (root : Bool) (t : MergeTree α) :
    (t.weigh threshold root).moduleNames = t.moduleNames := by
  induction t generalizing root with
  | module i => rfl
  | placeholder name => rfl
  | merge i links exported boundary left right ihl ihr =>
      simp only [weigh, moduleNames_merge, ihl, ihr]

theorem validate_weigh (threshold : Nat) (root : Bool) (t : MergeTree α) (g : Graph α) :
    (t.weigh threshold root).validate g = t.validate g := by
  have modules : (t.weigh threshold root).leaves.filterMap moduleName? =
      t.leaves.filterMap moduleName? := moduleNames_weigh threshold root t
  simp only [validate, nameTwice?, names_weigh, modules]

/-! ### Growing for another threshold -/

def Plan.withThreshold (p : Plan α) (threshold : Nat) : Plan α := { p with threshold }

/-- Reconciliation sees interfaces only, so it comes out alike. -/
theorem join_weigh (p : Plan α) (threshold : Nat) (root : Bool) (budget : Nat)
    (left right : MergeTree α) (b : Builder α) :
    join (p.withThreshold threshold) root budget (left.weigh threshold false)
        (right.weigh threshold false) b =
      ((join p root budget left right b).1.map (weigh threshold root),
        (join p root budget left right b).2) := by
  unfold join
  simp only [interface_weigh, Plan.withThreshold]
  split <;> rfl

theorem Plan.trafficAmong_withThreshold (p : Plan α) (threshold : Nat) :
    (p.withThreshold threshold).trafficAmong = p.trafficAmong := rfl

section Grow

variable [Scalar α]

theorem Plan.split_withThreshold (p : Plan α) (threshold : Nat) :
    (p.withThreshold threshold).split = p.split := rfl

theorem grow_weigh (p : Plan α) (threshold : Nat) (root : Bool) (members : List String)
    (b : Builder α) :
    grow (p.withThreshold threshold) root members b =
      ((grow p root members b).1.map (weigh threshold root), (grow p root members b).2) := by
  -- A side is no part of the list of members, so the induction is on their number.
  induction hn : members.length using Nat.strongRecOn generalizing root members b with
  | ind n ih =>
      subst hn
      match members with
      | [] =>
          rw [grow, grow]
          cases root <;> rfl
      | [only] =>
          rw [grow, grow]
          cases root with
          | false => rfl
          | true =>
              exact join_weigh p threshold true 0 (b.leaf p.graph only).1
                (b.leaf p.graph only).2.filler.1 (b.leaf p.graph only).2.filler.2
      | x :: y :: rest =>
          rw [grow, grow]
          simp only [Plan.split_withThreshold, Plan.trafficAmong_withThreshold]
          cases p.split (x :: y :: rest) (p.trafficAmong (x :: y :: rest)) with
          | error d => rfl
          | ok labels =>
              simp only
              split
              · next shorter =>
                rw [ih _ shorter.1 _ _ _ rfl]
                obtain ⟨left, b₁⟩ := grow p false (side true _ labels) _
                cases left with
                | error f => rfl
                | ok left =>
                    simp only [Except.map]
                    rw [ih _ shorter.2 _ _ _ rfl]
                    obtain ⟨right, b₂⟩ := grow p false (side false _ labels) b₁
                    cases right with
                    | error f => rfl
                    | ok right => exact join_weigh p threshold root _ left right b₂
              · rfl

/-- The tree for one threshold is the tree for another one with its marks set anew. -/
theorem build_weigh (g : Graph α) (hints : Hints α) (threshold threshold' : Nat) :
    build g hints threshold' = (build g hints threshold).map (weigh threshold' true) := by
  have grown :=
    grow_weigh (Plan.new g hints threshold) threshold' true g.moduleNames (Builder.new g)
  change grow (Plan.new g hints threshold') _ _ _ = _ at grown
  unfold build buildAsking
  rw [grown]
  obtain ⟨outcome, b⟩ := grow (Plan.new g hints threshold) true g.moduleNames (Builder.new g)
  cases outcome with
  | error f => rfl
  | ok t =>
      simp only [Except.map, validate_weigh]
      cases t.validate g <;> rfl

theorem weigh_of_build {g : Graph α} {hints : Hints α} {threshold : Nat} {t : MergeTree α}
    (h : build g hints threshold = .ok t) : t.weigh threshold true = t := by
  have same := build_weigh g hints threshold threshold
  rw [h] at same
  exact (Except.ok.inj same).symm

end Grow

/-! ### A design with one channel inside another -/

/-- Two channels, one inside the other: the senders are the last two modules. -/
def nestedEnds : List (Connection Rat) :=
  [Graph.plainEnd .recv "y" "a", Graph.plainEnd .recv "x" "b", Graph.plainEnd .send "x" "c",
    Graph.plainEnd .send "y" "d"]

/-- Splits the first member off. -/
def splitFirst : Hints Rat :=
  ⟨fun members _ => some (0 :: List.replicate (members.length - 1) 1), fun _ _ => 0⟩

def nested (threshold : Nat) : Except Fault (MergeTree Rat) :=
  build (Graph.assembly nestedEnds) splitFirst threshold

/-- Every node with its mark, the rules it passes on and the rules of its region. -/
def marks (t : MergeTree α) : List (String × Bool × Nat × Nat) :=
  t.preorder.map fun n => (n.name, n.isBoundary, n.exported, n.regionRules)

theorem names_boundaries (t : MergeTree α) :
    t.boundaries.map (·.name) = (t.marks.filter (·.2.1)).map (·.1) := by
  rw [boundaries, marks, List.filter_map, List.map_map]
  rfl

theorem exists_of_marks {outcome : Except Fault (MergeTree α)}
    {l : List (String × Bool × Nat × Nat)}
    (h : outcome.toOption.map marks = some l) : ∃ t, outcome = .ok t ∧ t.marks = l := by
  obtain ⟨t, ht, hl⟩ := Option.map_eq_some_iff.mp h
  exact ⟨t, toOption_eq_some.mp ht, hl⟩

theorem nested_one : ∃ t, nested 1 = .ok t ∧ t.marks =
    [("lim_node_2", true, 0, 1), ("a", false, 0, 0), ("lim_node_1", false, 1, 1),
      ("b", false, 0, 0), ("lim_node_0", true, 0, 2), ("c", false, 0, 0), ("d", false, 0, 0)] :=
  exists_of_marks (by decide +kernel)

theorem nested_two : ∃ t, nested 2 = .ok t ∧ t.marks =
    [("lim_node_2", true, 0, 0), ("a", false, 0, 0), ("lim_node_1", true, 0, 3), ("b", false, 0, 0),
      ("lim_node_0", false, 2, 2), ("c", false, 0, 0), ("d", false, 0, 0)] :=
  exists_of_marks (by decide +kernel)

/-! ### The number of boundaries -/

/-- A higher threshold draws fewer boundaries in a subtree, or as many and passes no more rules on.
The second half is what keeps the node above from gaining more than the subtrees lose. -/
theorem boundaries_weigh {threshold threshold' : Nat} (h : threshold ≤ threshold')
    (t : MergeTree α) :
    (t.weigh threshold' false).boundaries.length < (t.weigh threshold false).boundaries.length ∨
      (t.weigh threshold' false).boundaries.length = (t.weigh threshold false).boundaries.length ∧
        (t.weigh threshold' false).exported ≤ (t.weigh threshold false).exported := by
  induction t with
  | module i => exact .inr ⟨rfl, Nat.le_refl _⟩
  | placeholder name => exact .inr ⟨rfl, Nat.le_refl _⟩
  | merge i links exported boundary left right ihl ihr =>
      simp only [weigh, length_boundaries_merge, exported_merge, Bool.false_or]
      -- Only where the node becomes a boundary is there one more, and then a subtree has lost one,
      -- since otherwise no more rules would come up than before.
      by_cases exceeds : threshold < i.localRuleCount + (left.weigh threshold false).exported +
          (right.weigh threshold false).exported <;>
        by_cases exceeds' : threshold' < i.localRuleCount + (left.weigh threshold' false).exported +
          (right.weigh threshold' false).exported <;>
        simp only [exceeds, exceeds', decide_true, decide_false, if_true,
          Bool.false_eq_true, if_false, Bool.toNat_true, Bool.toNat_false] <;> omega

theorem boundaries_weigh_root {threshold threshold' : Nat} (h : threshold ≤ threshold')
    (t : MergeTree α) :
    (t.weigh threshold' true).boundaries.length ≤ (t.weigh threshold true).boundaries.length := by
  cases t with
  | module i => exact Nat.le_refl _
  | placeholder name => exact Nat.le_refl _
  | merge i links exported boundary left right =>
      have hl := boundaries_weigh h left
      have hr := boundaries_weigh h right
      simp only [weigh, length_boundaries_merge, Bool.true_or]
      omega

/-- Raising the threshold changes neither whether a tree is built nor its shape, names, ports and
links, and it never adds a boundary. -/
theorem build_boundaries_le [Scalar α] (g : Graph α) (hints : Hints α) {threshold threshold' : Nat}
    (h : threshold ≤ threshold') :
    (build g hints threshold').map bare = (build g hints threshold).map bare ∧
    ∀ t t', build g hints threshold = .ok t → build g hints threshold' = .ok t' →
      t'.bare = t.bare ∧ t'.boundaries.length ≤ t.boundaries.length := by
  have again := build_weigh g hints threshold threshold'
  refine ⟨?_, fun t t' ht ht' => ?_⟩
  · rw [again]
    cases build g hints threshold with
    | error f => rfl
    | ok t => exact congrArg Except.ok (bare_weigh threshold' true t)
  · rw [ht, ht'] at again
    cases again
    refine ⟨bare_weigh threshold' true t, ?_⟩
    have fewer := boundaries_weigh_root h t
    rwa [weigh_of_build ht] at fewer

/-- Where one boundary falls away the node above it becomes one. -/
theorem nested_build_boundaries_le : ∃ t t', nested 1 = .ok t ∧ nested 2 = .ok t' ∧
    t.boundaries.map (·.name) = ["lim_node_2", "lim_node_0"] ∧
    t'.boundaries.map (·.name) = ["lim_node_2", "lim_node_1"] ∧
    t'.bare = t.bare ∧ t'.boundaries.length ≤ t.boundaries.length := by
  obtain ⟨t, ht, hmarks⟩ := nested_one
  obtain ⟨t', ht', hmarks'⟩ := nested_two
  have le : 1 ≤ 2 := by decide
  refine ⟨t, t', ht, ht', ?_, ?_,
    (build_boundaries_le (Graph.assembly nestedEnds) splitFirst le).2 t t' ht ht'⟩
  · rw [names_boundaries, hmarks]
    rfl
  · rw [names_boundaries, hmarks']
    rfl

/-! ### Regions between boundaries -/

/-- The sums that come up at a node are those of the region below it. -/
theorem exported_weigh (threshold : Nat) (root : Bool) (t : MergeTree α) :
    (t.weigh threshold root).exported =
      if (t.weigh threshold root).isBoundary then 0 else (t.weigh threshold root).regionRules := by
  induction t generalizing root with
  | module i => rfl
  | placeholder name => rfl
  | merge i links exported boundary left right ihl ihr =>
      simp only [weigh, exported_merge, isBoundary_merge, regionRules_merge, ← ihl, ← ihr]

/-- A boundary below the root is drawn where a region grows larger than the threshold. -/
theorem isBoundary_weigh (threshold : Nat) (root : Bool) {t : MergeTree α}
    (inner : t.children ≠ []) : (t.weigh threshold root).isBoundary =
      (root || decide (threshold < (t.weigh threshold root).regionRules)) := by
  cases t with
  | module i => exact absurd rfl inner
  | placeholder name => exact absurd rfl inner
  | merge i links exported boundary left right =>
      simp only [weigh, isBoundary_merge, regionRules_merge, exported_weigh]

theorem weigh_of_mem_preorder {threshold : Nat} {t n : MergeTree α}
    (h : t.weigh threshold false = t) (hn : n ∈ t.preorder) : n.weigh threshold false = n := by
  induction t with
  | module i => rwa [List.mem_singleton.mp hn]
  | placeholder name => rwa [List.mem_singleton.mp hn]
  | merge i links exported boundary left right ihl ihr =>
      rw [preorder, List.mem_cons, List.mem_append] at hn
      cases hn with
      | inl here => rwa [here]
      | inr below =>
          simp only [weigh, merge.injEq] at h
          exact below.elim (ihl h.2.2.2.2.1) (ihr h.2.2.2.2.2)

theorem weigh_of_mem_tail {threshold : Nat} {t n : MergeTree α}
    (h : t.weigh threshold true = t) (hn : n ∈ t.preorder.tail) : n.weigh threshold false = n := by
  cases t with
  | module i => cases hn
  | placeholder name => cases hn
  | merge i links exported boundary left right =>
      simp only [weigh, merge.injEq] at h
      exact (List.mem_append.mp hn).elim (weigh_of_mem_preorder h.2.2.2.2.1)
        (weigh_of_mem_preorder h.2.2.2.2.2)

theorem Arity.total_of_cons (p : Port α) (ports : List (Port α)) :
    (Arity.of (p :: ports)).total = (Arity.of ports).total + 1 := by
  simp only [Arity.of, Arity.total, List.countP_cons]
  cases p.connection.kind.isChain <;> cases p.connection.kind.isSource <;> simp <;> omega

/-- Each end is counted under one direction and one family. -/
theorem Arity.total_of (ports : List (Port α)) : (Arity.of ports).total = ports.length := by
  induction ports with
  | nil => rfl
  | cons p ports ih => rw [total_of_cons, ih, List.length_cons]

/-- What the counts at the nodes of a tree say about the regions between its boundaries. -/
structure BoundedRegions (t : MergeTree α) (threshold : Nat) : Prop where
  root : t.isBoundary = true
  inside : ∀ n ∈ t.preorder, n.children ≠ [] → n.isBoundary = false →
    n.exported = n.regionRules ∧ n.regionRules ≤ threshold
  boundary : ∀ n ∈ t.preorder.tail, n.isBoundary = true → threshold < n.regionRules
  silent : ∀ n ∈ t.preorder, n.children = [] ∨ n.isBoundary = true → n.exported = 0
  ports : ∀ n ∈ t.preorder, n.interface.localRuleCount = n.interface.ports.length ∧
    n.interface.ports.length = (Arity.of n.interface.ports).total

theorem isBoundary_of_assembled {g : Graph α} {t : MergeTree α} (h : Assembled g true t) :
    t.isBoundary = true := by
  cases h with
  | node hl hr ho => rfl

theorem preorder_eq_cons (t : MergeTree α) : t.preorder = t :: t.preorder.tail := by
  cases t <;> rfl

theorem exported_of_mem {threshold : Nat} {t n : MergeTree α} (h : t.weigh threshold true = t)
    (hn : n ∈ t.preorder) : n.exported = if n.isBoundary then 0 else n.regionRules := by
  rw [preorder_eq_cons] at hn
  cases List.mem_cons.mp hn with
  | inl here =>
      have sum := exported_weigh threshold true t
      rwa [h, ← here] at sum
  | inr below =>
      have sum := exported_weigh threshold false n
      rwa [weigh_of_mem_tail h below] at sum

theorem exported_of_leaf {t : MergeTree α} (h : t.children = []) : t.exported = 0 := by
  cases t with
  | module i => rfl
  | placeholder name => rfl
  | merge i links exported boundary left right => cases h

theorem children_ne_nil {t : MergeTree α} (h : t.isBoundary = true) : t.children ≠ [] := by
  cases t with
  | module i => cases h
  | placeholder name => cases h
  | merge i links exported boundary left right => exact List.cons_ne_nil _ _

/-- What is counted node by node is bounded for whole regions. -/
theorem regions_bounded [Scalar α] {g : Graph α} {hints : Hints α} {threshold : Nat}
    {t : MergeTree α} (h : build g hints threshold = .ok t) : t.BoundedRegions threshold := by
  have weighed := weigh_of_build h
  have top := isBoundary_of_assembled (assembled_of_build h).1
  have drawn {n : MergeTree α} (hn : n ∈ t.preorder.tail) (inner : n.children ≠ []) :
      n.isBoundary = decide (threshold < n.regionRules) := by
    have rule := isBoundary_weigh threshold false inner
    rwa [weigh_of_mem_tail weighed hn] at rule
  constructor
  case root => exact top
  case inside =>
    intro n hn inner unmarked
    have below : n ∈ t.preorder.tail := by
      rw [preorder_eq_cons] at hn
      refine (List.mem_cons.mp hn).resolve_left fun here => ?_
      rw [here, top] at unmarked
      cases unmarked
    have sum := exported_of_mem weighed hn
    rw [unmarked] at sum
    rw [drawn below inner] at unmarked
    exact ⟨sum, Nat.le_of_not_lt (of_decide_eq_false unmarked)⟩
  case boundary =>
    intro n hn marked
    rw [drawn hn (children_ne_nil marked)] at marked
    exact of_decide_eq_true marked
  case silent =>
    intro n hn quiet
    cases quiet with
    | inl leaf => exact exported_of_leaf leaf
    | inr marked =>
        have sum := exported_of_mem weighed hn
        rwa [marked] at sum
  case ports =>
    intro n hn
    exact ⟨List.length_append.symm, (Arity.total_of n.interface.ports).symm⟩

/-- A boundary below a node whose region it leaves. -/
theorem nested_regions_bounded : ∃ t, nested 1 = .ok t ∧ t.marks =
    [("lim_node_2", true, 0, 1), ("a", false, 0, 0), ("lim_node_1", false, 1, 1),
      ("b", false, 0, 0), ("lim_node_0", true, 0, 2), ("c", false, 0, 0), ("d", false, 0, 0)] ∧
    t.BoundedRegions 1 := by
  obtain ⟨t, ht, hmarks⟩ := nested_one
  exact ⟨t, ht, hmarks, regions_bounded ht⟩

end HardwareLinker.MergeTree
