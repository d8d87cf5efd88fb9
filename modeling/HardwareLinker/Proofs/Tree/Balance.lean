import HardwareLinker.Proofs.Tree.Chains

/-!
The balance of a chain. Every link of a merge tree takes one source end and one sink end, so the
links and the open ends of either side add up to the ends that the modules list, whatever the cuts.
The root leaves only one side open: it links as much of the chain as there is to link, which is also
what the graph links.
-/

namespace HardwareLinker

variable {α : Type}

namespace Thread

/-- How many of some ends are sources, or sinks. -/
def count (source : Bool) (l : List End) : Nat := l.countP (·.1 == source)

theorem count_append (source : Bool) (l r : List End) :
    count source (l ++ r) = count source l + count source r := List.countP_append

theorem count_perm {l r : List End} (h : l.Perm r) (source : Bool) :
    count source l = count source r := h.countP_eq _

theorem count_cons (source : Bool) (e : End) (l : List End) :
    count source (e :: l) = count source l + if e.1 = source then 1 else 0 := by
  rw [count, count, List.countP_cons]
  simp only [beq_iff_eq]

/-- One end of every link is a source, the other one a sink. -/
theorem count_linked {linked : List (End × End)} (h : ∀ l ∈ linked, l.1.1 ≠ l.2.1)
    (source : Bool) :
    count source (linked.map Prod.fst) + count source (linked.map Prod.snd) = linked.length := by
  induction linked with
  | nil => rfl
  | cons l rest ih =>
      obtain ⟨hl, hrest⟩ := List.forall_mem_cons.mp h
      have one : (if l.1.1 = source then 1 else 0) + (if l.2.1 = source then 1 else 0) = 1 := by
        generalize l.1.1 = x, l.2.1 = y at hl
        cases x <;> cases y <;> cases source <;> first | rfl | exact absurd rfl hl
      have ih := ih hrest
      rw [List.map_cons, List.map_cons, count_cons, count_cons, List.length_cons]
      omega

theorem count_flatMap (source : Bool) (linked : List (End × End)) :
    count source (linked.flatMap fun l => [l.1, l.2]) =
      count source (linked.map Prod.fst) + count source (linked.map Prod.snd) := by
  induction linked with
  | nil => rfl
  | cons l rest ih =>
      rw [List.flatMap_cons, List.map_cons, List.map_cons, count_append, ih]
      simp only [count_cons]
      have none : count source [] = 0 := rfl
      omega

end Thread

/-! ### Ends of the leaves -/

namespace Graph

/-- The source or the sink ends of a chain that the named modules list. -/
def chainSideOf (g : Graph α) (names : List String) (chain : String) (source : Bool) :
    List ConnectionId :=
  names.flatMap fun name => (g.module? name).elim [] fun m => g.chainEndsOf m chain source

theorem chainSideOf_append (g : Graph α) (l r : List String) (chain : String) (source : Bool) :
    g.chainSideOf (l ++ r) chain source =
      g.chainSideOf l chain source ++ g.chainSideOf r chain source := List.flatMap_append

theorem chainSideOf_moduleNames (g : Graph α) (chain : String) (source : Bool) :
    g.chainSideOf g.moduleNames chain source = g.chainSide chain source :=
  g.flatMap_moduleNames fun m => g.chainEndsOf m chain source

end Graph

namespace MergeTree

open Reconcile (linkedEnds portEnds)

theorem length_openEnds (t : MergeTree α) (g : Graph α) (chain : String) (source : Bool) :
    (t.openEnds chain source).length = Thread.count source (t.openThread g chain) := by
  rw [Thread.count, List.countP_eq_length_filter, openThread_filter, List.length_map]

theorem length_openEnds_leaf {g : Graph α} (hg : g.Coherent) (name chain : String)
    (source : Bool) :
    ((MergeTree.module (leafInterface g name)).openEnds chain source).length =
      (g.chainSideOf [name] chain source).length := by
  rw [Graph.chainSideOf, List.flatMap_singleton]
  cases hm : g.module? name with
  | none =>
      have hnone : (leafInterface g name).family true = [] := by
        rw [family_leaf, hm]
        rfl
      show ((((leafInterface g name).family true).filter _)).length = 0
      rw [hnone]
      rfl
  | some m => rw [Option.elim_some, ← origins_openEnds_leaf hg hm, List.length_map]

/-- What a node leaves open and links of a chain is what its children leave open. -/
theorem balance_of_passes {g : Graph α} {root : Bool} {budget : Nat} {left right : MergeTree α}
    {o : Reconcile.Outcome α} {channels chains : Paired α} {ring : List (PortPair α)}
    {opened : List (ChildPort α)}
    (passes : Reconcile.Passes g root budget left.interface right.interface o channels chains ring
      opened) (name : String) (threshold : Nat) (chain : String) (source : Bool) :
    ((node name root threshold o left right).openEnds chain source).length +
        (linkedEnds g chain (chains.pairs ++ ring)).length =
      (left.openEnds chain source).length + (right.openEnds chain source).length := by
  have lefts := Thread.count_perm (lefts_of_passes chain passes) source
  have rights := Thread.count_perm (rights_of_passes chain passes) source
  have closed := Thread.count_perm (ring_of_passes chain passes) source
  have linked := Thread.count_linked (fit_of_passes chain passes) source
  rw [Reconcile.linkedEnds_append, List.map_append, List.map_append] at linked
  simp only [Thread.count_append, Thread.count_flatMap] at lefts rights closed linked
  rw [length_openEnds _ g, length_openEnds left g, length_openEnds right g, openThread_node passes,
    Reconcile.linkedEnds_append]
  omega

/-- The links of a chain and its open source ends are as many as the source ends of the modules;
likewise for sink ends. -/
theorem Assembled.balance {g : Graph α} (hg : g.Coherent) {root : Bool} {t : MergeTree α}
    (h : Assembled g root t) (chain : String) (source : Bool) :
    (t.openEnds chain source).length + (t.chainSteps chain).length =
      (g.chainSideOf t.moduleNames chain source).length := by
  induction h with
  | module name =>
      rw [length_openEnds_leaf hg, moduleNames_module, name_leaf]
      rfl
  | placeholder name => rfl
  | @node root _ threshold name left right o hl hr ho ihl ihr =>
      obtain ⟨_, chains, ring, _, passes⟩ := Reconcile.reconcile_passes ho
      have own := balance_of_passes passes name threshold chain source
      have steps : ((MergeTree.node name root threshold o left right).chainSteps chain).length =
          (linkedEnds g chain (chains.pairs ++ ring)).length +
            ((left.chainSteps chain).length + (right.chainSteps chain).length) := by
        rw [chainSteps_node passes, List.length_append, List.length_append, List.length_map]
      rw [steps, moduleNames_node, Graph.chainSideOf_append, List.length_append]
      omega

/-- A root leaves no source end of a chain open beside a sink end of it. -/
theorem Assembled.one_side_open {g : Graph α} (hg : g.Coherent) {t : MergeTree α}
    (h : Assembled g true t) (chain : String) :
    t.openEnds chain true = [] ∨ t.openEnds chain false = [] := by
  have apart : (t.openThread g chain).Pairwise fun x y => x.1 = y.1 := by
    cases h with
    | node hl hr ho =>
        obtain ⟨_, _, _, _, passes⟩ := Reconcile.reconcile_passes ho
        rw [openThread_node passes]
        exact ring_apart passes hg hl hr (Reconcile.closeRing_spec (passes.ringPass rfl))
  have shown {source : Bool} {p : Port α} (hp : p ∈ t.openEnds chain source) :
      p.threadEnd g ∈ t.openThread g chain ∧ (p.threadEnd g).1 = source := by
    obtain ⟨hin, hname, hside⟩ := mem_openEnds.mp hp
    exact ⟨List.mem_map_of_mem (List.mem_filter.mpr ⟨hin, beq_iff_eq.mpr hname⟩), hside⟩
  by_contra hboth
  obtain ⟨hs, hk⟩ := not_or.mp hboth
  obtain ⟨p, hp⟩ := List.exists_mem_of_ne_nil _ hs
  obtain ⟨q, hq⟩ := List.exists_mem_of_ne_nil _ hk
  have : Std.Symm fun x y : Thread.End => x.1 = y.1 := ⟨fun _ _ h => h.symm⟩
  have same := List.Pairwise.forall_of_forall (R := fun x y : Thread.End => x.1 = y.1)
    (fun _ _ => rfl) apart (shown hp).1 (shown hq).1
  rw [(shown hp).2, (shown hq).2] at same
  cases same

/-- A root links a chain as far as its scarcer side reaches and leaves the surplus open. -/
structure ChainClosed (t : MergeTree α) (chain : String) (sources sinks : Nat) : Prop where
  links : ((t.placedLinks .chain).filter (·.2.name == chain)).length = min sources sinks
  openSources : (t.openEnds chain true).length = sources - sinks
  openSinks : (t.openEnds chain false).length = sinks - sources

theorem Assembled.chainClosed {g : Graph α} (hg : g.Coherent) {t : MergeTree α}
    (h : Assembled g true t) (hperm : t.moduleNames.Perm g.moduleNames) (chain : String) :
    t.ChainClosed chain (g.chainSide chain true).length (g.chainSide chain false).length := by
  have total (source : Bool) : (t.openEnds chain source).length + (t.chainSteps chain).length =
      (g.chainSide chain source).length := by
    rw [h.balance hg, ← g.chainSideOf_moduleNames]
    exact (hperm.flatMap_right _).length_eq
  have sources := total true
  have sinks := total false
  have one := (h.one_side_open hg chain).imp (congrArg List.length) (congrArg List.length)
  have steps : (t.chainSteps chain).length =
      ((t.placedLinks .chain).filter (·.2.name == chain)).length := List.length_map _
  rw [List.length_nil] at one
  constructor <;> omega

end MergeTree
end HardwareLinker
