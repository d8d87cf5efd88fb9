import Mathlib.Data.List.Nodup
import HardwareLinker.Proofs.Tree.Growth
import HardwareLinker.Proofs.Tree.Handles

/-!
Building always succeeds. In a reachable graph whose modules do not contradict themselves about the
type of a chain, ends of one name that meet in a tree agree on their type, so siblings are always
reconciled. The tree that comes out is a full binary one with a leaf for each module and a name of
its own for each node.
-/

namespace HardwareLinker

variable {α : Type}

/-- No module lists two chain ends of one name with different types. -/
def Graph.ChainsTyped (g : Graph α) : Prop :=
  ∀ ⦃name : String⦄ ⦃m : Module⦄ ⦃c d : ConnectionId⦄ ⦃e f : Connection α⦄,
    g.module? name = some m → c ∈ m.chains → d ∈ m.chains →
    g.connection? c = some e → g.connection? d = some f → e.name = f.name → e.type = f.type

theorem Graph.ChainsTyped.of_lists {g : Graph α} (h : g.ChainsTyped) {name : String}
    {c d : ConnectionId} {e f : Connection α} (hc : g.Lists true name c)
    (hd : g.Lists true name d) (he : g.connection? c = some e) (hf : g.connection? d = some f)
    (hn : e.name = f.name) : e.type = f.type := by
  obtain ⟨m, hm, hcm⟩ := hc
  obtain ⟨m', hm', hdm⟩ := hd
  cases g.modules.value_unique hm hm'
  exact h (NameMap.find?_eq_some.mpr hm) hcm hdm he hf hn

namespace MergeTree

/-! ### Types of ports that meet -/

theorem Holds.types_agree {g : Graph α} (hg : g.Sound) {left right : MergeTree α}
    (hd : (left.moduleNames ++ right.moduleNames).Nodup) {chain : Bool} {c d : ConnectionId}
    {e f : Connection α} (hc : left.Holds g chain c) (hd' : right.Holds g chain d)
    (he : g.connection? c = some e) (hf : g.connection? d = some f) (hn : e.name = f.name) :
    e.type = f.type := by
  obtain ⟨A, hA, hAc⟩ := hc
  obtain ⟨B, hB, hBd⟩ := hd'
  refine hg.typed trivial ?_ hAc hBd he hf hn
  rintro rfl
  exact List.disjoint_of_nodup_append hd hA hB

theorem Holds.chain_types_agree {g : Graph α} (hg : g.Sound) (ht : g.ChainsTyped)
    {s t : MergeTree α} {c d : ConnectionId} {e f : Connection α} (hc : s.Holds g true c)
    (hd : t.Holds g true d) (he : g.connection? c = some e) (hf : g.connection? d = some f)
    (hn : e.name = f.name) : e.type = f.type := by
  obtain ⟨A, -, hAc⟩ := hc
  obtain ⟨B, -, hBd⟩ := hd
  by_cases hAB : A = B
  · exact ht.of_lists hAc (hAB ▸ hBd) he hf hn
  · exact hg.typed trivial hAB hAc hBd he hf hn

theorem pairsChannel_ok {g : Graph α} (hg : g.Sound) {left right : MergeTree α}
    (hl : Assembled g false left) (hr : Assembled g false right)
    (hd : (left.moduleNames ++ right.moduleNames).Nodup) {a b : ChildPort α}
    (ha : a.port ∈ left.interface.channels) (hb : b.port ∈ right.interface.channels) :
    ∃ found, Reconcile.pairsChannel g.partner? a b = .ok found := by
  obtain ⟨hha, e, he, hea⟩ := hl.port_spec (show a.port ∈ left.interface.family false from ha)
  obtain ⟨hhb, f, hf, hfb⟩ := hr.port_spec (show b.port ∈ right.interface.family false from hb)
  unfold Reconcile.pairsChannel
  split
  · next hp =>
    obtain ⟨e', he', hep⟩ := Graph.partner?_eq_some.mp (beq_iff_eq.mp hp)
    rw [he] at he'
    cases he'
    obtain ⟨-, f', hf', -, hn, hk⟩ := hg.partners he hep
    rw [hf] at hf'
    cases hf'
    have htype := hha.types_agree hg hd hhb he hf hn
    have hpairs := Reconcile.pairs_ok (a := a) (b := b) fun _ => by
      rw [hea.type, hfb.type, htype]
    have hfits : Reconcile.Fits a b :=
      ⟨by rw [hea.name, hfb.name, hn], hea.free, hfb.free, by rw [hea.kind, hfb.kind, hk]⟩
    rw [hpairs, hfits.linkable]
    exact ⟨true, rfl⟩
  · exact ⟨false, rfl⟩

theorem pairs_chains_ok {g : Graph α} (hg : g.Sound) (ht : g.ChainsTyped) {s t : MergeTree α}
    (hs : Assembled g false s) (ht' : Assembled g false t) {a b : ChildPort α}
    (ha : a.port ∈ s.interface.chains) (hb : b.port ∈ t.interface.chains) :
    ∃ found, Reconcile.pairs a b = .ok found := by
  obtain ⟨hha, e, he, hea⟩ := hs.port_spec (show a.port ∈ s.interface.family true from ha)
  obtain ⟨hhb, f, hf, hfb⟩ := ht'.port_spec (show b.port ∈ t.interface.family true from hb)
  refine ⟨_, Reconcile.pairs_ok fun hn => ?_⟩
  rw [hea.name, hfb.name] at hn
  rw [hea.type, hfb.type, hha.chain_types_agree hg ht hhb he hf hn]

theorem reconcile_ok {g : Graph α} (hg : g.Sound) (ht : g.ChainsTyped) (root : Bool)
    (budget : Nat) {left right : MergeTree α} (hl : Assembled g false left)
    (hr : Assembled g false right) (hd : (left.moduleNames ++ right.moduleNames).Nodup) :
    ∃ o, Reconcile.reconcile g root budget left.interface right.interface = .ok o := by
  obtain ⟨channels, hchannels⟩ : ∃ out, Reconcile.pairChannels g.partner?
      (Reconcile.childPorts left.interface.name left.interface.channels)
      (Reconcile.childPorts right.interface.name right.interface.channels) = .ok out :=
    Reconcile.pairAcross_ok fun a ha b hb =>
      pairsChannel_ok hg hl hr hd (Reconcile.mem_childPorts.mp ha).2
        (Reconcile.mem_childPorts.mp hb).2
  obtain ⟨chains, hchains⟩ : ∃ out, Reconcile.pairChains root
      (Reconcile.childPorts left.interface.name left.interface.chains)
      (Reconcile.childPorts right.interface.name right.interface.chains) = .ok out :=
    Reconcile.pairAcross_ok fun a ha b hb =>
      pairs_chains_ok hg ht hl hr (Reconcile.mem_childPorts.mp ha).2
        (Reconcile.mem_childPorts.mp hb).2
  have from_side {a : ChildPort α} (ha : a ∈ chains.left ++ chains.right) :
      a.port ∈ left.interface.chains ∨ a.port ∈ right.interface.chains :=
    Reconcile.open_of_pairAcross hchains ha
  obtain ⟨ring, hring⟩ : ∃ r, Reconcile.closeRing (chains.left ++ chains.right) = .ok r := by
    refine Reconcile.closeRing_ok fun a ha b hb => ?_
    rcases from_side ha with ha | ha <;> rcases from_side hb with hb | hb
    · exact pairs_chains_ok hg ht hl hl ha hb
    · exact pairs_chains_ok hg ht hl hr ha hb
    · exact pairs_chains_ok hg ht hr hl ha hb
    · exact pairs_chains_ok hg ht hr hr ha hb
  unfold Reconcile.reconcile
  show ∃ o, (Reconcile.pairChannels g.partner? _ _ >>= _) = .ok o
  rw [hchannels]
  show ∃ o, (Reconcile.pairChains root _ _ >>= _) = .ok o
  rw [hchains]
  cases root with
  | true =>
      show ∃ o, (Reconcile.closeRing (chains.left ++ chains.right) >>= _) = .ok o
      rw [hring]
      exact ⟨_, rfl⟩
  | false => exact ⟨_, rfl⟩

/-! ### Names and leaves -/

/-- Every node either stands for a module or has a name that was made up. -/
theorem names_perm (t : MergeTree α) :
    (t.preorder.map (·.name)).Perm (t.innerNames ++ t.moduleNames) := by
  induction t with
  | module i => exact .refl _
  | placeholder name => exact .refl _
  | merge i links exported boundary left right ihl ihr =>
      have hinner : (merge i links exported boundary left right).innerNames =
          i.name :: (left.innerNames ++ right.innerNames) := by
        simp [innerNames, preorder, moduleName?, name, interface]
      rw [hinner, moduleNames_merge, preorder, List.map_cons, List.map_append, List.cons_append]
      refine List.Perm.cons _ ((ihl.append ihr).trans ?_)
      simp only [List.append_assoc]
      refine List.Perm.append_left _ ?_
      simp only [← List.append_assoc]
      exact List.Perm.append_right _ List.perm_append_comm

def HasPlaceholder (t : MergeTree α) : Prop := ∃ n ∈ t.preorder, n.isPlaceholder = true

theorem hasPlaceholder_node {name : String} {root : Bool} {threshold : Nat}
    {o : Reconcile.Outcome α} {left right : MergeTree α} :
    (node name root threshold o left right).HasPlaceholder ↔
      left.HasPlaceholder ∨ right.HasPlaceholder := by
  simp only [HasPlaceholder, preorder_node, List.mem_cons, List.mem_append, or_and_right,
    exists_or]
  simp [node, isPlaceholder]

section Grow

variable [Scalar α]

theorem grow_single {p : Plan α} {root : Bool} {only : String} {b b' : Builder α}
    {t : MergeTree α} (h : grow p root [only] b = (.ok t, b')) :
    t.HasPlaceholder ↔ root = true := by
  rw [grow] at h
  cases root with
  | true =>
      obtain ⟨o, -, rfl, -⟩ := join_eq_ok h
      refine iff_of_true (hasPlaceholder_node.mpr (.inr ?_)) rfl
      exact ⟨_, List.mem_singleton_self _, rfl⟩
  | false =>
      cases h
      refine iff_of_false ?_ Bool.false_ne_true
      rintro ⟨n, hn, hp⟩
      cases List.mem_singleton.mp hn
      cases hp

/-- An empty leaf is only put beside a module that is alone. -/
theorem hasPlaceholder_of_grow [Scalar.Cancelling α] {p : Plan α} {root : Bool}
    {members : List String} {b b' : Builder α} {t : MergeTree α}
    (h : grow p root members b = (.ok t, b')) (hne : members ≠ []) :
    t.HasPlaceholder ↔ root = true ∧ members.length = 1 := by
  induction hn : members.length using Nat.strongRecOn generalizing root members b b' t with
  | ind n ih =>
      subst hn
      match members with
      | [] => exact absurd rfl hne
      | [only] => simpa using grow_single h
      | x :: y :: rest =>
          obtain ⟨labels, left, right, b₁, b₂, hlabels, hzero, hone, hleft, hright, hjoin⟩ :=
            grow_split h
          obtain ⟨hzeros, hones⟩ := Plan.sides_ne_nil hlabels
          obtain ⟨o, -, rfl, -⟩ := join_eq_ok hjoin
          rw [hasPlaceholder_node, ih _ hzero hleft hzeros rfl, ih _ hone hright hones rfl]
          simp

end Grow

/-! ### The finished tree -/

theorem nameTwice?_eq_none {t : MergeTree α} (h : (t.preorder.map (·.name)).Nodup) :
    t.nameTwice? = none := by
  have go (seen names : List String) (hn : names.Nodup) (hs : ∀ n ∈ names, n ∉ seen) :
      nameTwice?.go seen names = none := by
    induction names generalizing seen with
    | nil => rfl
    | cons name rest ih =>
        obtain ⟨hname, hrest⟩ := List.nodup_cons.mp hn
        obtain ⟨hseen, hs⟩ := List.forall_mem_cons.mp hs
        rw [nameTwice?.go, if_neg (by simpa using hseen)]
        refine ih _ hrest fun n hm hmem => ?_
        rcases List.mem_cons.mp hmem with rfl | hmem
        · exact hname hm
        · exact hs n hm hmem
  exact go [] _ h fun _ _ => List.not_mem_nil

/-- A full binary tree over the modules of a graph, with its handles counted from zero and a name of
its own for every node. -/
structure Complete (t : MergeTree α) (g : Graph α) (nodes : Nat) : Prop where
  handles : (t.located.map (·.id)).Perm (List.range nodes)
  visited : t.located.map (·.node) = t.preorder
  binary : ∀ n ∈ t.preorder, n.children = [] ∨ ∃ left right, n.children = [left, right]
  children : ∀ l ∈ t.located, childrenOf t.located l.id = l.node.children
  parents : ∀ l ∈ t.located, l.parent = none ∧ l.node = t ∨
    ∃ k ∈ t.located, l.parent = some k.id ∧ l.node ∈ k.node.children
  modules : t.moduleNames.Perm g.moduleNames
  once : t.moduleNames.Nodup
  placeholder : t.HasPlaceholder ↔ g.modules.size = 1
  names : (t.preorder.map (·.name)).Nodup

theorem children_binary (t : MergeTree α) :
    t.children = [] ∨ ∃ left right, t.children = [left, right] := by
  cases t with
  | module i => exact .inl rfl
  | placeholder name => exact .inl rfl
  | merge i links exported boundary left right => exact .inr ⟨left, right, rfl⟩

section Build

variable [Scalar α]

/-- Made-up names and module names do not meet, because the module names were reserved. -/
theorem Grown.names_nodup {g : Graph α} {hints : Hints α} {threshold : Nat} {root : Bool}
    {t : MergeTree α} {b : Builder α}
    (h : Grown (Plan.new g hints threshold) root g.moduleNames (Builder.new g) t b) :
    (t.preorder.map (·.name)).Nodup := by
  refine (names_perm t).nodup_iff.mpr (h.distinct.append ?_ fun n hn hm => ?_)
  · exact h.modules.nodup_iff.mpr g.modules.keys_nodup
  · exact (h.fresh n hn).1 (h.modules.subset hm)

theorem Grown.validate_ok {g : Graph α} {hints : Hints α} {threshold : Nat} {root : Bool}
    {t : MergeTree α} {b : Builder α}
    (h : Grown (Plan.new g hints threshold) root g.moduleNames (Builder.new g) t b) :
    t.validate g = .ok () := by
  have hcount : (t.leaves.filterMap moduleName?).length = g.modules.size :=
    h.modules.length_eq.trans (List.length_map _)
  unfold validate
  rw [nameTwice?_eq_none h.names_nodup]
  simp only [hcount, ne_eq, not_true_eq_false, if_false]

theorem build_of_grow {g : Graph α} {hints : Hints α} {threshold : Nat} {t : MergeTree α}
    {b : Builder α}
    (h : grow (Plan.new g hints threshold) true g.moduleNames (Builder.new g) = (.ok t, b)) :
    build g hints threshold = .ok t := by
  simp only [build, buildAsking, h, (grown_of_grow h).validate_ok]
  rfl

theorem complete_of_grow [Scalar.Cancelling α] {g : Graph α} {hints : Hints α} {threshold : Nat}
    {t : MergeTree α} {b : Builder α} (hsize : 0 < g.modules.size)
    (h : grow (Plan.new g hints threshold) true g.moduleNames (Builder.new g) = (.ok t, b)) :
    t.Complete g b.nodes := by
  have hg := grown_of_grow h
  have hlength : g.moduleNames.length = g.modules.size := List.length_map _
  have hnodes : b.nodes = t.size := hg.nodes.trans (Nat.zero_add _)
  refine ⟨?_, t.nodes_located, fun n _ => n.children_binary, t.parents_and_children.1,
    t.parents_and_children.2, hg.modules, hg.modules.nodup_iff.mpr g.modules.keys_nodup, ?_,
    hg.names_nodup⟩
  · rw [hnodes]
    exact t.ids_located
  · rw [hasPlaceholder_of_grow h, hlength]
    · simp
    · exact List.ne_nil_of_length_pos (by omega)

end Build

end MergeTree

theorem Graph.Sound.build_ok [Scalar α] [Scalar.Cancelling α] {g : Graph α} (h : g.Sound)
    (hsize : 0 < g.modules.size) (htypes : g.ChainsTyped) (hints : MergeTree.Hints α)
    (threshold : Nat) :
    ∃ t b, MergeTree.grow (.new g hints threshold) true g.moduleNames (.new g) = (.ok t, b) ∧
      MergeTree.build g hints threshold = .ok t := by
  have hne : g.moduleNames ≠ [] := by
    have hlength : g.moduleNames.length = g.modules.size := List.length_map _
    exact List.ne_nil_of_length_pos (by omega)
  obtain ⟨t, b, hgrow⟩ := MergeTree.grow_ok (p := .new g hints threshold)
    (fun root budget _ _ hl hr hd => MergeTree.reconcile_ok h htypes root budget hl hr hd)
    g.modules.keys_nodup (fun _ => hne) (MergeTree.Builder.new g)
  exact ⟨t, b, hgrow, MergeTree.build_of_grow hgrow⟩

/-- Building a tree over a reachable graph succeeds for every oracle and every threshold, and no
flow on the way is cut short. -/
theorem Graph.Reachable.build_complete [Scalar α] [Scalar.Cancelling α] {g : Graph α}
    (h : g.Reachable) (hsize : 0 < g.modules.size) (htypes : g.ChainsTyped)
    (hints : MergeTree.Hints α) (threshold : Nat) :
    (∃ t b, MergeTree.grow (.new g hints threshold) true g.moduleNames (.new g) = (.ok t, b) ∧
      MergeTree.build g hints threshold = .ok t ∧ t.Complete g b.nodes) ∧
    ∀ (members : List String) (s t : Nat), s < t → t < members.length →
      let network := Capacities.ofEdges members.length
        ((MergeTree.Plan.new g hints threshold).trafficAmong members)
      Capacities.reached s ((network.maxFlow s t).residual.search s) t = false := by
  refine ⟨?_, fun members s t hst ht => ?_⟩
  · obtain ⟨t, b, hgrow, hbuild⟩ := h.sound.build_ok hsize htypes hints threshold
    exact ⟨t, b, hgrow, hbuild, MergeTree.complete_of_grow hsize hgrow⟩
  · refine Capacities.maxFlow_stops (Capacities.square_ofEdges _ _) ?_ (by omega)
    rw [Capacities.nodes_ofEdges]
    omega

theorem Graph.pipeline_chainsTyped : Graph.pipeline.ChainsTyped := by
  have typed {c : ConnectionId} {e : Connection Rat} (h : Graph.pipeline.connection? c = some e) :
      e.type = "Bit#(1)" := by
    have all : Graph.pipeline.connections.toList.all (·.type == "Bit#(1)") = true := by cbv
    obtain ⟨hi, he⟩ := Array.getElem?_eq_some_iff.mp h
    have hmem := List.all_eq_true.mp all e (he ▸ Array.getElem_mem_toList hi)
    exact beq_iff_eq.mp hmem
  intro name m c d e f _ _ _ he hf _
  rw [typed he, typed hf]

theorem Graph.pipeline_build_complete :
    ∃ t b, MergeTree.build Graph.pipeline .none 4 = .ok t ∧ t.Complete Graph.pipeline b ∧
      ¬ t.HasPlaceholder := by
  have hsize : Graph.pipeline.modules.size = 3 := by cbv
  obtain ⟨⟨t, b, -, hbuild, hcomplete⟩, -⟩ :=
    Graph.pipeline_reachable.build_complete (by omega) Graph.pipeline_chainsTyped .none 4
  refine ⟨t, b.nodes, hbuild, hcomplete, fun hp => ?_⟩
  have := hcomplete.placeholder.mp hp
  omega

end HardwareLinker
