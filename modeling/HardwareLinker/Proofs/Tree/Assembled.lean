import Mathlib.Data.List.Nodup
import HardwareLinker.Tree.Build
import HardwareLinker.Proofs.Graph.Partners
import HardwareLinker.Proofs.Tree.Pairing

/-!
Trees that merging builds. A tree is assembled from leaves by reconciling two assembled subtrees at
a time; how the members were split does not matter. Every open port of an assembled tree stands for
a listed end of one of its modules, and for each end at most one port is open.
-/

namespace HardwareLinker

variable {α : Type}

/-! ### What a merge node gets from reconciliation -/

def Interface.family (i : Interface α) (chain : Bool) : List (Port α) :=
  if chain then i.chains else i.channels

/-- A port is free and shows the name, kind and type of an end. -/
structure Port.StandsFor (p : Port α) (e : Connection α) : Prop where
  name : p.connection.name = e.name
  kind : p.connection.kind = e.kind
  type : p.connection.type = e.type
  free : p.connection.matched = false

namespace Reconcile

open MergeTree

/-- Spending a budget in two goes, the second with what the first one left, spends it in one. -/
theorem spendBuffers_append (budget : Nat) (first second : List Link) :
    spendBuffers budget (first ++ second) =
      ((spendBuffers budget first).1 ++ (spendBuffers (spendBuffers budget first).2 second).1,
        (spendBuffers (spendBuffers budget first).2 second).2) := by
  induction first generalizing budget with
  | nil => rfl
  | cons l first ih => rw [List.cons_append, spendBuffers, ih, spendBuffers, List.cons_append]

/-- The passes of a reconciliation and what each of them leaves. -/
structure Passes (g : Graph α) (root : Bool) (budget : Nat) (left right : Interface α)
    (o : Outcome α) (channels chains : Paired α) (ring : List (PortPair α))
    (opened : List (ChildPort α)) : Prop where
  channelPass : pairChannels g.partner? (childPorts left.name left.channels)
    (childPorts right.name right.channels) = .ok channels
  chainPass : pairChains root (childPorts left.name left.chains)
    (childPorts right.name right.chains) = .ok chains
  ringPass : root = true → closeRing (chains.left ++ chains.right) = .ok (ring, opened)
  noRing : root = false → ring = [] ∧ opened = chains.left ++ chains.right
  openChannels : o.channels = (channels.left ++ channels.right).map (·.port)
  openChains : o.chains = opened.map (·.port)
  links : o.links = (spendBuffers budget (channels.pairs.map (link g.owner? .channel) ++
    (chains.pairs ++ ring).map (link g.owner? .chain))).1

theorem reconcile_passes {g : Graph α} {root : Bool} {budget : Nat} {left right : Interface α}
    {o : Outcome α} (h : reconcile g root budget left right = .ok o) :
    ∃ channels chains ring opened,
      Passes g root budget left right o channels chains ring opened := by
  obtain ⟨channels, hchannels, h⟩ := bind_eq_ok h
  obtain ⟨chains, hchains, h⟩ := bind_eq_ok h
  have spent (f f' : PortPair α → Link) (ring : List (PortPair α)) :
      (spendBuffers budget (channels.pairs.map f ++ (chains.pairs ++ ring).map f')).1 =
      (spendBuffers budget (channels.pairs.map f)).1 ++
        (spendBuffers (spendBuffers budget (channels.pairs.map f)).2 (chains.pairs.map f')).1 ++
        (spendBuffers (spendBuffers (spendBuffers budget (channels.pairs.map f)).2
          (chains.pairs.map f')).2 (ring.map f')).1 := by
    rw [List.map_append, spendBuffers_append, spendBuffers_append, List.append_assoc]
  cases root with
  | false =>
      cases h
      exact ⟨channels, chains, [], _, hchannels, hchains, nofun, fun _ => ⟨rfl, rfl⟩, rfl, rfl,
        (spent _ _ []).symm⟩
  | true =>
      simp only [if_true] at h
      obtain ⟨⟨ring, opened⟩, hring, h⟩ := bind_eq_ok h
      cases h
      exact ⟨channels, chains, ring, opened, hchannels, hchains, fun _ => hring, nofun, rfl, rfl,
        (spent _ _ ring).symm⟩

@[simp] theorem map_port_childPorts (child : String) (ports : List (Port α)) :
    (childPorts child ports).map (·.port) = ports := by
  simp [childPorts, Function.comp_def]

theorem mem_childPorts {child : String} {ports : List (Port α)} {a : ChildPort α} :
    a ∈ childPorts child ports ↔ a.child = child ∧ a.port ∈ ports := by
  obtain ⟨c, p⟩ := a
  simp only [childPorts, List.mem_map, ChildPort.mk.injEq]
  constructor
  · rintro ⟨q, hq, rfl, rfl⟩
    exact ⟨rfl, hq⟩
  · rintro ⟨rfl, hp⟩
    exact ⟨p, hp, rfl, rfl⟩

theorem open_of_pairAcross {test : ChildPort α → ChildPort α → Except Fault Bool}
    {skip : List (PortPair α) → ChildPort α → Bool} {leftName rightName : String}
    {l r : List (Port α)} {out : Paired α}
    (h : pairAcross test skip ⟨[], [], childPorts rightName r⟩ (childPorts leftName l) = .ok out)
    {a : ChildPort α} (ha : a ∈ out.left ++ out.right) : a.port ∈ l ∨ a.port ∈ r := by
  have hc := crossing_of_pairAcross h
  rcases List.mem_append.mp ha with ha | ha
  · exact .inl (mem_childPorts.mp (hc.leftOrder.subset ha)).2
  · exact .inr (mem_childPorts.mp (hc.rightOrder.subset ha)).2

/-- The open ports of a node are those of its children that found no partner, in their order. -/
theorem Passes.sublist {g : Graph α} {root : Bool} {budget : Nat} {left right : Interface α}
    {o : Outcome α} {channels chains : Paired α} {ring : List (PortPair α)}
    {opened : List (ChildPort α)}
    (h : Passes g root budget left right o channels chains ring opened) (chain : Bool) :
    (if chain then o.chains else o.channels).Sublist
      (left.family chain ++ right.family chain) := by
  have across {test : ChildPort α → ChildPort α → Except Fault Bool}
      {skip : List (PortPair α) → ChildPort α → Bool} {l r : List (Port α)} {out : Paired α}
      (hp : pairAcross test skip ⟨[], [], childPorts right.name r⟩ (childPorts left.name l) =
        .ok out) : ((out.left ++ out.right).map (·.port)).Sublist (l ++ r) := by
    have hc := crossing_of_pairAcross hp
    simpa using (hc.leftOrder.append hc.rightOrder).map (·.port)
  cases chain with
  | false =>
      rw [if_neg Bool.false_ne_true, h.openChannels]
      exact across h.channelPass
  | true =>
      have hsub : opened.Sublist (chains.left ++ chains.right) := by
        cases root with
        | false => rw [(h.noRing rfl).2]
        | true => exact (closeRing_spec (h.ringPass rfl)).order
      rw [if_pos rfl, h.openChains]
      exact (hsub.map _).trans (across h.chainPass)

end Reconcile

namespace MergeTree

/-! ### Nodes and modules of a tree -/

def moduleNames (t : MergeTree α) : List String := t.leaves.filterMap moduleName?

@[simp] theorem moduleNames_module (i : Interface α) : moduleNames (.module i) = [i.name] := rfl

@[simp] theorem moduleNames_merge (i : Interface α) (links : List Link) (exported : Nat)
    (boundary : Bool) (left right : MergeTree α) :
    moduleNames (.merge i links exported boundary left right) =
      left.moduleNames ++ right.moduleNames := by
  simp [moduleNames, leaves, preorder, children]

theorem moduleNames_sublist {t m : MergeTree α} (h : m ∈ t.preorder) :
    m.moduleNames.Sublist t.moduleNames := by
  induction t with
  | module i =>
      cases List.mem_singleton.mp h
      exact .refl _
  | placeholder name =>
      cases List.mem_singleton.mp h
      exact .refl _
  | merge i links exported boundary left right ihl ihr =>
      rcases List.mem_cons.mp h with rfl | h
      · exact .refl _
      · rw [moduleNames_merge]
        rcases List.mem_append.mp h with h | h
        · exact (ihl h).trans (List.sublist_append_left _ _)
        · exact (ihr h).trans (List.sublist_append_right _ _)

/-- How a tree comes about: leaves, and nodes that reconcile two subtrees. The flag tells whether
the tree was closed as a root. -/
inductive Assembled (g : Graph α) : Bool → MergeTree α → Prop
  | module (name : String) : Assembled g false (.module (leafInterface g name))
  | placeholder (name : String) : Assembled g false (.placeholder name)
  | node {root : Bool} {budget threshold : Nat} {name : String} {left right : MergeTree α}
      {o : Reconcile.Outcome α} (hl : Assembled g false left) (hr : Assembled g false right)
      (ho : Reconcile.reconcile g root budget left.interface right.interface = .ok o) :
      Assembled g root (node name root threshold o left right)

@[simp] theorem moduleNames_node (name : String) (root : Bool) (threshold : Nat)
    (o : Reconcile.Outcome α) (left right : MergeTree α) :
    (node name root threshold o left right).moduleNames =
      left.moduleNames ++ right.moduleNames := moduleNames_merge ..

theorem family_node (name : String) (root : Bool) (threshold : Nat) (o : Reconcile.Outcome α)
    (left right : MergeTree α) (chain : Bool) :
    (node name root threshold o left right).interface.family chain =
      (if chain then o.chains else o.channels).map (expose name) := by
  cases chain <;> rfl

theorem preorder_node (name : String) (root : Bool) (threshold : Nat) (o : Reconcile.Outcome α)
    (left right : MergeTree α) :
    (node name root threshold o left right).preorder =
      node name root threshold o left right :: (left.preorder ++ right.preorder) := rfl

/-- Every node below the top is assembled, and none of them was closed as a root. -/
theorem Assembled.of_mem {g : Graph α} {root : Bool} {t n : MergeTree α} (h : Assembled g root t)
    (hn : n ∈ t.preorder) : n = t ∨ Assembled g false n := by
  induction h with
  | module name => exact .inl (List.mem_singleton.mp hn)
  | placeholder name => exact .inl (List.mem_singleton.mp hn)
  | node hl hr ho ihl ihr =>
      rw [preorder_node] at hn
      rcases List.mem_cons.mp hn with rfl | hn
      · exact .inl rfl
      · refine .inr ?_
        rcases List.mem_append.mp hn with hn | hn
        · exact (ihl hn).elim (fun e => e ▸ hl) id
        · exact (ihr hn).elim (fun e => e ▸ hr) id

/-! ### Ports -/

def leafPort (g : Graph α) (name : String) (c : ConnectionId) : Option (Port α) :=
  (g.connection? c).map fun e =>
    ⟨{ e.unmatch with
        chainRoot := if e.kind.isChain then some (e.chainRoot.getD name) else e.chainRoot }, c⟩

theorem leafPort_eq_some {g : Graph α} {name : String} {c : ConnectionId} {p : Port α}
    (h : leafPort g name c = some p) :
    p.origin = c ∧ ∃ e, g.connection? c = some e ∧ p.StandsFor e := by
  obtain ⟨e, he, rfl⟩ := Option.map_eq_some_iff.mp h
  exact ⟨rfl, e, he, rfl, rfl, rfl, rfl⟩

theorem family_leaf (g : Graph α) (name : String) (chain : Bool) :
    (leafInterface g name).family chain =
      (((g.module? name).map fun m => m.family chain).getD []).filterMap (leafPort g name) := by
  unfold leafInterface
  cases g.module? name <;> cases chain <;> rfl

theorem name_leaf (g : Graph α) (name : String) : (leafInterface g name).name = name := by
  unfold leafInterface
  cases g.module? name <;> rfl

theorem mem_leaf {g : Graph α} {name : String} {chain : Bool} {p : Port α}
    (h : p ∈ (leafInterface g name).family chain) :
    g.Lists chain name p.origin ∧ ∃ e, g.connection? p.origin = some e ∧ p.StandsFor e := by
  rw [family_leaf] at h
  obtain ⟨c, hc, hp⟩ := List.mem_filterMap.mp h
  obtain ⟨rfl, he⟩ := leafPort_eq_some hp
  cases hm : g.module? name with
  | none => rw [hm] at hc; cases hc
  | some m =>
      rw [hm] at hc
      exact ⟨⟨m, NameMap.find?_eq_some.mp hm, hc⟩, he⟩

theorem mem_origins_leaf {g : Graph α} (hg : g.Coherent) {name : String} {chain : Bool}
    {c : ConnectionId} :
    c ∈ ((leafInterface g name).family chain).map (·.origin) ↔ g.Lists chain name c := by
  constructor
  · intro h
    obtain ⟨p, hp, rfl⟩ := List.mem_map.mp h
    exact (mem_leaf hp).1
  · intro h
    obtain ⟨e, he, -⟩ := hg.listed h
    obtain ⟨m, hm, hc⟩ := h
    rw [family_leaf, show g.module? name = some m from NameMap.find?_eq_some.mpr hm]
    exact List.mem_map.mpr ⟨_, List.mem_filterMap.mpr ⟨c, hc, by rw [leafPort, he]; rfl⟩, rfl⟩

theorem origins_leaf_nodup {g : Graph α} (hg : g.Coherent) (name : String) (chain : Bool) :
    (((leafInterface g name).family chain).map (·.origin)).Nodup := by
  rw [family_leaf]
  cases hm : g.module? name with
  | none => exact .nil
  | some m =>
      have shown : ∀ l : List ConnectionId,
          ((l.filterMap (leafPort g name)).map (·.origin)).Sublist l := by
        intro l
        induction l with
        | nil => exact .slnil
        | cons c rest ih =>
            rw [List.filterMap_cons]
            split
            · exact ih.cons c
            · next p hp =>
              rw [List.map_cons, (leafPort_eq_some hp).1]
              exact ih.cons_cons c
      exact (hg.nodup chain (NameMap.find?_eq_some.mp hm)).sublist (shown _)

/-- The end belongs to a module of the tree. -/
def Holds (t : MergeTree α) (g : Graph α) (chain : Bool) (c : ConnectionId) : Prop :=
  ∃ A ∈ t.moduleNames, g.Lists chain A c

theorem holds_node {g : Graph α} {name : String} {root : Bool} {threshold : Nat}
    {o : Reconcile.Outcome α} {left right : MergeTree α} {chain : Bool} {c : ConnectionId} :
    (node name root threshold o left right).Holds g chain c ↔
      left.Holds g chain c ∨ right.Holds g chain c := by
  simp only [Holds, moduleNames_node, List.mem_append, or_and_right, exists_or]

theorem holds_leaf {g : Graph α} {name : String} {chain : Bool} {c : ConnectionId} :
    (MergeTree.module (leafInterface g name)).Holds g chain c ↔ g.Lists chain name c := by
  simp [Holds, name_leaf]

theorem not_holds_both {g : Graph α} (hg : g.Coherent) {left right : MergeTree α}
    (hd : (left.moduleNames ++ right.moduleNames).Nodup) {chain chain' : Bool} {c : ConnectionId}
    (hl : left.Holds g chain c) (hr : right.Holds g chain' c) : False := by
  obtain ⟨A, hA, hAc⟩ := hl
  obtain ⟨B, hB, hBc⟩ := hr
  have hAB := (hg.owner_unique hAc hBc).1
  exact List.disjoint_of_nodup_append hd hA (hAB ▸ hB)

theorem Assembled.port_spec {g : Graph α} {root : Bool} {t : MergeTree α}
    (h : Assembled g root t) {chain : Bool} {p : Port α} (hp : p ∈ t.interface.family chain) :
    t.Holds g chain p.origin ∧ ∃ e, g.connection? p.origin = some e ∧ p.StandsFor e := by
  induction h generalizing p with
  | module name => exact ⟨holds_leaf.mpr (mem_leaf hp).1, (mem_leaf hp).2⟩
  | placeholder name => cases chain <;> cases hp
  | node hl hr ho ihl ihr =>
      obtain ⟨_, _, _, _, passes⟩ := Reconcile.reconcile_passes ho
      rw [family_node] at hp
      obtain ⟨q, hq, rfl⟩ := List.mem_map.mp hp
      rw [holds_node]
      rcases List.mem_append.mp ((passes.sublist chain).subset hq) with hm | hm
      · obtain ⟨hh, e, he, hs⟩ := ihl hm
        exact ⟨.inl hh, e, he, hs.name, hs.kind, hs.type, hs.free⟩
      · obtain ⟨hh, e, he, hs⟩ := ihr hm
        exact ⟨.inr hh, e, he, hs.name, hs.kind, hs.type, hs.free⟩

/-- Siblings hold different modules, so their open ports stand for different ends. -/
theorem siblings_nodup {g : Graph α} (hg : g.Coherent) {root root' : Bool}
    {left right : MergeTree α} (hl : Assembled g root left) (hr : Assembled g root' right)
    (hd : (left.moduleNames ++ right.moduleNames).Nodup) {chain : Bool}
    (dl : ((left.interface.family chain).map (·.origin)).Nodup)
    (dr : ((right.interface.family chain).map (·.origin)).Nodup) :
    ((left.interface.family chain ++ right.interface.family chain).map (·.origin)).Nodup := by
  rw [List.map_append]
  refine List.Nodup.append dl dr ?_
  intro c hcl hcr
  obtain ⟨p, hp, rfl⟩ := List.mem_map.mp hcl
  obtain ⟨q, hq, hqp⟩ := List.mem_map.mp hcr
  exact not_holds_both hg hd (hl.port_spec hp).1 (hqp ▸ (hr.port_spec hq).1)

theorem Assembled.origins_nodup {g : Graph α} (hg : g.Coherent) {root : Bool} {t : MergeTree α}
    (h : Assembled g root t) (hd : t.moduleNames.Nodup) (chain : Bool) :
    ((t.interface.family chain).map (·.origin)).Nodup := by
  induction h with
  | module name => exact origins_leaf_nodup hg name chain
  | placeholder name => cases chain <;> exact .nil
  | @node _ _ _ _ left right _ hl hr ho ihl ihr =>
      obtain ⟨_, _, _, _, passes⟩ := Reconcile.reconcile_passes ho
      rw [moduleNames_node] at hd
      have both := siblings_nodup hg hl hr hd (ihl hd.of_append_left) (ihr hd.of_append_right)
      rw [family_node, List.map_map]
      exact both.sublist ((passes.sublist chain).map (·.origin))

end MergeTree
end HardwareLinker
