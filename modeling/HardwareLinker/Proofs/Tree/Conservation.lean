import HardwareLinker.Proofs.Graph.Cache
import HardwareLinker.Proofs.Tree.Growth
import HardwareLinker.Proofs.Tree.Residual

/-!
Conservation of ports. What the children of a node leave open goes either into the links of the
node, two ports each, or stays open on the node itself; nothing is lost or taken twice. Along the
tree the ends that the modules list are shared out in the same way between all links and the root.
-/

namespace HardwareLinker

variable {α : Type}

namespace Reconcile

/-- The ends that a pair of ports stands for. -/
def pairOrigins (p : PortPair α) : List ConnectionId := [p.1.port.origin, p.2.port.origin]

/-- A pair with its source port first. -/
def orient (p : PortPair α) : PortPair α :=
  if p.1.port.connection.kind.isSource then p else (p.2, p.1)

/-- A link of a node and the ports of the two children that it takes, the source port first. -/
structure Takes (g : Graph α) (left right : Interface α) (l : Link) (p : PortPair α) : Prop where
  ports : ∀ a ∈ [p.1, p.2],
    a ∈ childPorts left.name left.ports ++ childPorts right.name right.ports
  kinds : p.1.port.connection.kind.isSource = true ∧ p.2.port.connection.kind.isSource = false
  family : ∀ a ∈ [p.1, p.2], a.port.connection.kind.isChain = (l.family == .chain)
  name : ∀ a ∈ [p.1, p.2], a.port.connection.name = l.name
  type : p.1.port.connection.type = p.2.port.connection.type
  children : l.source = p.1.child ∧ l.sink = p.2.child
  modules : g.owner? p.1.port.origin = some l.sourceModule ∧
    g.owner? p.2.port.origin = some l.sinkModule

theorem count_pairOrigins (ps : List (PortPair α)) (c : ConnectionId) :
    (ps.flatMap pairOrigins).count c =
      ((ps.map Prod.fst).map (·.port.origin)).count c +
        ((ps.map Prod.snd).map (·.port.origin)).count c := by
  induction ps with
  | nil => rfl
  | cons p rest ih =>
      simp only [List.flatMap_cons, List.map_cons, List.count_append, List.count_cons, pairOrigins,
        List.count_nil, ih]
      omega

theorem orient_perm (ps : List (PortPair α)) :
    ((ps.map orient).flatMap pairOrigins).Perm (ps.flatMap pairOrigins) := by
  induction ps with
  | nil => exact .nil
  | cons p rest ih =>
      refine List.Perm.append ?_ ih
      unfold orient
      split
      · exact .refl _
      · exact .swap _ _ _

/-- A pass shares the ports of two siblings out between the pairs and what stays open. -/
theorem origins_of_pairAcross {test : ChildPort α → ChildPort α → Except MergeTree.Fault Bool}
    {skip : List (PortPair α) → ChildPort α → Bool} {left right : List (ChildPort α)}
    {out : Paired α} (h : pairAcross test skip ⟨[], [], right⟩ left = .ok out) :
    ((left ++ right).map (·.port.origin)).Perm
      ((out.left ++ out.right).map (·.port.origin) ++ out.pairs.flatMap pairOrigins) := by
  have hc := crossing_of_pairAcross h
  apply List.perm_iff_count.mpr
  intro c
  have lefts := (hc.lefts.map (·.port.origin)).count_eq c
  have rights := (hc.rights.map (·.port.origin)).count_eq c
  simp only [List.map_append, List.count_append] at lefts rights
  simp only [List.map_append, List.count_append, count_pairOrigins]
  omega

theorem origins_of_closeRing {ports kept : List (ChildPort α)} {found : List (PortPair α)}
    (h : closeRing ports = .ok (found, kept)) :
    (ports.map (·.port.origin)).Perm
      (kept.map (·.port.origin) ++ found.flatMap pairOrigins) := by
  have hperm := (closeRing_spec h).perm.map (·.port.origin)
  have pairs : (found.flatMap fun p => [p.1, p.2]).map (·.port.origin) =
      found.flatMap pairOrigins := by
    rw [List.map_flatMap]
    rfl
  rw [List.map_append, pairs] at hperm
  exact hperm.symm.trans List.perm_append_comm

theorem ports_perm (left right : Interface α) :
    (left.ports ++ right.ports).Perm
      ((left.family false ++ right.family false) ++ (left.family true ++ right.family true)) := by
  change ((left.channels ++ left.chains) ++ (right.channels ++ right.chains)).Perm
    ((left.channels ++ right.channels) ++ (left.chains ++ right.chains))
  simp only [List.append_assoc]
  refine List.Perm.append_left _ ?_
  rw [← List.append_assoc, ← List.append_assoc]
  exact List.perm_append_comm.append_right _

section Node

variable {g : Graph α} {root : Bool} {budget : Nat} {left right : Interface α} {o : Outcome α}
  {channels chains : Paired α} {ring : List (PortPair α)} {opened : List (ChildPort α)}

/-- The pairs that become links of one family. -/
def linkedPairs (channels chains : Paired α) (ring : List (PortPair α)) (chain : Bool) :
    List (PortPair α) :=
  if chain then chains.pairs ++ ring else channels.pairs

/-- All pairs that become links, with their family, in the order of the links. -/
def allPairs (channels chains : Paired α) (ring : List (PortPair α)) : List (Bool × PortPair α) :=
  [false, true].flatMap fun chain => (linkedPairs channels chains ring chain).map (chain, ·)

theorem mem_allPairs {x : Bool × PortPair α} :
    x ∈ allPairs channels chains ring ↔ x.2 ∈ linkedPairs channels chains ring x.1 := by
  obtain ⟨chain, p⟩ := x
  cases chain <;> simp [allPairs]

/-- The pairs that the links of a node take, source ports first. -/
def takenPairs (channels chains : Paired α) (ring : List (PortPair α)) : List (PortPair α) :=
  (linkedPairs channels chains ring false ++ linkedPairs channels chains ring true).map orient

theorem takenPairs_eq : takenPairs channels chains ring =
    (allPairs channels chains ring).map fun x => orient x.2 := by
  simp [takenPairs, allPairs, Function.comp_def]

theorem Passes.links_eq (h : Passes g root budget left right o channels chains ring opened) :
    o.links.map Link.plain = (allPairs channels chains ring).map fun x =>
      link g.owner? (if x.1 then .chain else .channel) x.2 := by
  rw [h.links, plain_spendBuffers]
  simp only [allPairs, linkedPairs, List.flatMap_cons, List.flatMap_nil, List.map_append,
    List.map_map, Bool.false_eq_true, if_false, if_true, List.append_nil]
  rfl

/-- The ports of one family that the children leave open are linked or stay open. -/
theorem Passes.origins (h : Passes g root budget left right o channels chains ring opened)
    (chain : Bool) :
    ((left.family chain ++ right.family chain).map (·.origin)).Perm
      ((if chain then o.chains else o.channels).map (·.origin) ++
        (linkedPairs channels chains ring chain).flatMap pairOrigins) := by
  have shown {l r : List (Port α)} : (childPorts left.name l ++ childPorts right.name r).map
      (·.port.origin) = (l ++ r).map (·.origin) := by
    simp only [List.map_append, origins_childPorts]
  have ports (l : List (ChildPort α)) :
      (l.map (·.port)).map (·.origin) = l.map (·.port.origin) := by
    rw [List.map_map]
    rfl
  cases chain with
  | false =>
      have pass := origins_of_pairAcross h.channelPass
      rw [shown] at pass
      simp only [Bool.false_eq_true, if_false, h.openChannels, ports]
      exact pass
  | true =>
      have pass := origins_of_pairAcross h.chainPass
      rw [shown] at pass
      have close : ((chains.left ++ chains.right).map (·.port.origin)).Perm
          (opened.map (·.port.origin) ++ ring.flatMap pairOrigins) := by
        cases root with
        | false => simp [(h.noRing rfl).1, (h.noRing rfl).2]
        | true => exact origins_of_closeRing (h.ringPass rfl)
      simp only [if_true, h.openChains, ports, linkedPairs, List.flatMap_append]
      refine pass.trans ((close.append_right _).trans ?_)
      rw [List.append_assoc]
      exact List.perm_append_comm.append_left _

theorem Passes.split (h : Passes g root budget left right o channels chains ring opened) :
    ((left.ports ++ right.ports).map (·.origin)).Perm
      ((o.channels ++ o.chains).map (·.origin) ++
        (takenPairs channels chains ring).flatMap pairOrigins) := by
  apply List.perm_iff_count.mpr
  intro c
  have ports := ((ports_perm left right).map (·.origin)).count_eq c
  have taken := (orient_perm (linkedPairs channels chains ring false ++
    linkedPairs channels chains ring true)).count_eq c
  have family (chain : Bool) := (h.origins chain).count_eq c
  have hchannels := family false
  have hchains := family true
  simp only [Bool.false_eq_true, if_false, if_true, List.map_append, List.flatMap_append,
    List.count_append] at ports taken hchannels hchains
  simp only [takenPairs, List.map_append, List.flatMap_append, List.count_append]
  omega

theorem pairs_of_pairsChannel {partner? : ConnectionId → Option ConnectionId} {a b : ChildPort α}
    (h : pairsChannel partner? a b = .ok true) : pairs a b = .ok true := by
  unfold pairsChannel at h
  split at h
  · split at h
    · cases h
    · next hpairs => exact hpairs
    · cases h
  · cases h

/-- Linked ports belong to the children and fit, types included. -/
theorem Passes.linked_spec (h : Passes g root budget left right o channels chains ring opened)
    {chain : Bool} {p : PortPair α} (hp : p ∈ linkedPairs channels chains ring chain) :
    (∀ a ∈ [p.1, p.2], a ∈ childPorts left.name (left.family chain) ++
      childPorts right.name (right.family chain)) ∧ pairs p.1 p.2 = .ok true := by
  have across {test : ChildPort α → ChildPort α → Except MergeTree.Fault Bool}
      {skip : List (PortPair α) → ChildPort α → Bool} {l r : List (ChildPort α)} {out : Paired α}
      (ho : pairAcross test skip ⟨[], [], r⟩ l = .ok out) (hp : p ∈ out.pairs) :
      (∀ a ∈ [p.1, p.2], a ∈ l ++ r) ∧ test p.1 p.2 = .ok true := by
    have hc := crossing_of_pairAcross ho
    refine ⟨List.forall_mem_cons.mpr ⟨?_, List.forall_mem_singleton.mpr ?_⟩, hc.passed p hp⟩
    · exact List.mem_append_left _
        (hc.lefts.subset (List.mem_append_left _ (List.mem_map_of_mem hp)))
    · exact List.mem_append_right _
        (hc.rights.subset (List.mem_append_left _ (List.mem_map_of_mem hp)))
  cases chain with
  | false =>
      obtain ⟨sides, passed⟩ := across h.channelPass hp
      exact ⟨sides, pairs_of_pairsChannel passed⟩
  | true =>
      cases List.mem_append.mp hp with
      | inl hp => exact across h.chainPass hp
      | inr hp =>
          cases root with
          | false =>
              rw [(h.noRing rfl).1] at hp
              cases hp
          | true =>
              have hr := closeRing_spec (h.ringPass rfl)
              have hc := crossing_of_pairAcross h.chainPass
              refine ⟨fun a ha => ?_, hr.passed p hp⟩
              have hopen : a ∈ chains.left ++ chains.right := hr.perm.subset
                (List.mem_append_left _ (List.mem_flatMap.mpr ⟨p, hp, ha⟩))
              exact (hc.leftOrder.append hc.rightOrder).subset hopen

/-- The link that a pair becomes takes the two ports of the pair. -/
theorem takes_of_pair {chain : Bool} {p : PortPair α} {l : Link}
    (hl : l.plain = link g.owner? (if chain then .chain else .channel) p)
    (hp : ∀ a ∈ [p.1, p.2],
      a ∈ childPorts left.name left.ports ++ childPorts right.name right.ports)
    (hfits : pairs p.1 p.2 = .ok true)
    (listed : ∀ a ∈ [p.1, p.2], a.port.connection.kind.isChain = chain ∧
      ∃ A, g.owner? a.port.origin = some A) : Takes g left right l (orient p) := by
  obtain ⟨fits, type⟩ := fits_of_pairs hfits
  have differ := (Connection.Kind.complements_iff.mp fits.kinds).2
  have sourceFirst {a b : ChildPort α} (hab : ∀ x ∈ [a, b], x ∈ [p.1, p.2])
      (ha : a.port.connection.kind.isSource = true) (hb : b.port.connection.kind.isSource = false)
      (hn : b.port.connection.name = a.port.connection.name)
      (ht : a.port.connection.type = b.port.connection.type)
      (hl : l.plain = ⟨if chain then .chain else .channel, a.port.connection.name, a.child, b.child,
        (g.owner? a.port.origin).getD "", (g.owner? b.port.origin).getD "", false⟩) :
      Takes g left right l (a, b) := by
    have hfamily : (l.plain.family == .chain) = chain := by
      rw [hl]
      cases chain <;> rfl
    have hname : a.port.connection.name = l.name := (congrArg Link.name hl).symm
    have owned {x : ChildPort α} (hx : x ∈ [a, b]) :
        g.owner? x.port.origin = some ((g.owner? x.port.origin).getD "") := by
      obtain ⟨A, hA⟩ := (listed x (hab x hx)).2
      rw [hA]
      rfl
    exact {
      ports := fun x hx => hp x (hab x hx)
      kinds := ⟨ha, hb⟩
      family := fun x hx => (listed x (hab x hx)).1.trans hfamily.symm
      name := by simp [hname, hn]
      type := ht
      children := ⟨congrArg Link.source hl, congrArg Link.sink hl⟩
      modules := ⟨(owned (by simp)).trans (congrArg (some ·.sourceModule) hl).symm,
        (owned (by simp)).trans (congrArg (some ·.sinkModule) hl).symm⟩ }
  unfold orient
  split
  · next hs =>
    refine sourceFirst (fun x hx => hx) hs ?_ fits.name.symm type (hl.trans (link_of_source hs))
    exact Bool.eq_false_iff.mpr fun hk => differ (hs.trans hk.symm)
  · next hs =>
    have hs' := Bool.eq_false_iff.mpr hs
    refine sourceFirst ?_ ?_ hs' fits.name type.symm (hl.trans (link_of_sink hs))
    · intro x hx
      exact (List.Perm.swap _ _ _).subset hx
    · exact (Bool.not_eq_false _).mp fun hk => differ (hs'.trans hk.symm)

end Node

end Reconcile

namespace MergeTree

open Reconcile

/-! ### One node -/

/-- How a merge node shares out what its children leave open: two ports go into each link, and the
others stay open in their order, renamed to the node. -/
structure Shares (g : Graph α) (n left right : MergeTree α) (taken : List (PortPair α)) : Prop where
  links : List.Forall₂ (Takes g left.interface right.interface) n.links taken
  apart : ((left.interface.ports ++ right.interface.ports).map (·.origin)).Nodup
  split : ((left.interface.ports ++ right.interface.ports).map (·.origin)).Perm
    (n.interface.ports.map (·.origin) ++ taken.flatMap pairOrigins)
  survivors : ∀ chain, n.interface.family chain =
    ((left.interface.family chain ++ right.interface.family chain).filter fun p =>
      p.origin ∉ taken.flatMap pairOrigins).map (expose n.name)

theorem eq_filter_of_sublist {β : Type} {l l' : List β} {p : β → Bool} (h : l'.Sublist l)
    (hd : l.Nodup) (hm : ∀ x ∈ l, x ∈ l' ↔ p x = true) : l' = l.filter p := by
  induction h with
  | slnil => rfl
  | @cons l₁ l₂ a h ih =>
      obtain ⟨ha, hd⟩ := List.nodup_cons.mp hd
      obtain ⟨hma, hm⟩ := List.forall_mem_cons.mp hm
      rw [List.filter_cons_of_neg fun hp => ha (h.subset (hma.mpr hp))]
      exact ih hd hm
  | @cons_cons l₁ l₂ a h ih =>
      obtain ⟨ha, hd⟩ := List.nodup_cons.mp hd
      obtain ⟨hma, hm⟩ := List.forall_mem_cons.mp hm
      rw [List.filter_cons_of_pos (hma.mp List.mem_cons_self)]
      refine congrArg (a :: ·) (ih hd fun x hx => ?_)
      have hne : x ≠ a := fun e => ha (e ▸ hx)
      exact (List.mem_cons.trans (or_iff_right hne)).symm.trans (hm x hx)

section Node

variable {g : Graph α} (hg : g.Coherent) {root : Bool} {budget : Nat} {left right : MergeTree α}
  {o : Reconcile.Outcome α} {channels chains : Paired α} {ring : List (PortPair α)}
  {opened : List (ChildPort α)} (hl : Assembled g false left) (hr : Assembled g false right)
  (hd : (left.moduleNames ++ right.moduleNames).Nodup)

include hg hl hr

/-- A port that a child leaves open stands for a listed end of its family. -/
theorem listed_of_sibling {chain : Bool} {p : Port α}
    (hp : p ∈ left.interface.family chain ++ right.interface.family chain) :
    (∃ A, g.Lists chain A p.origin) ∧ p.connection.kind.isChain = chain ∧
      ∃ A, g.owner? p.origin = some A := by
  have stands {t : MergeTree α} (ht : Assembled g false t) (hp : p ∈ t.interface.family chain) :
      (∃ A, g.Lists chain A p.origin) ∧ p.connection.kind.isChain = chain ∧
        ∃ A, g.owner? p.origin = some A := by
    obtain ⟨⟨A, -, hA⟩, e, he, hs⟩ := ht.port_spec hp
    refine ⟨⟨A, hA⟩, ?_, e.owner, ?_⟩
    · rw [hs.kind]
      exact (hg.listed_on_owner hA he).2.1
    · rw [Graph.owner?, he]
      rfl
  cases List.mem_append.mp hp with
  | inl hp => exact stands hl hp
  | inr hp => exact stands hr hp

/-- Ports that stand for one end are of one family. -/
theorem family_unique {chain chain' : Bool} {p q : Port α}
    (hp : p ∈ left.interface.family chain ++ right.interface.family chain)
    (hq : q ∈ left.interface.family chain' ++ right.interface.family chain')
    (he : p.origin = q.origin) : chain = chain' := by
  obtain ⟨⟨A, hA⟩, -⟩ := listed_of_sibling hg hl hr hp
  obtain ⟨⟨B, hB⟩, -⟩ := listed_of_sibling hg hl hr hq
  exact (hg.owner_unique hA (he ▸ hB)).2

theorem links_of_passes
    (passes : Passes g root budget left.interface right.interface o channels chains ring opened) :
    List.Forall₂ (Takes g left.interface right.interface) o.links
      (takenPairs channels chains ring) := by
  have shown {child : String} {i : Interface α} {chain : Bool} {a : ChildPort α}
      (ha : a ∈ childPorts child (i.family chain)) :
      a ∈ childPorts child i.ports ∧ a.port ∈ i.family chain := by
    obtain ⟨hc, hp⟩ := mem_childPorts.mp ha
    refine ⟨mem_childPorts.mpr ⟨hc, ?_⟩, hp⟩
    cases chain with
    | false => exact List.mem_append_left _ hp
    | true => exact List.mem_append_right _ hp
  rw [takenPairs_eq, List.forall₂_map_right_iff, ← List.map_id o.links]
  refine forall₂_of_plain_eq passes.links_eq fun x hx l hlink => ?_
  obtain ⟨sides, passed⟩ := passes.linked_spec (mem_allPairs.mp hx)
  refine takes_of_pair hlink (fun a ha => ?_) passed fun a ha => ?_
  · exact List.mem_append.mpr ((List.mem_append.mp (sides a ha)).imp (shown · |>.1) (shown · |>.1))
  · have member := (List.mem_append.mp (sides a ha)).imp (shown · |>.2) (shown · |>.2)
    exact (listed_of_sibling hg hl hr (List.mem_append.mpr member)).2

include hd

theorem siblings_apart :
    ((left.interface.ports ++ right.interface.ports).map (·.origin)).Nodup := by
  have family (chain : Bool) := siblings_nodup hg hl hr hd
    (hl.origins_nodup hg hd.of_append_left chain) (hr.origins_nodup hg hd.of_append_right chain)
  refine ((ports_perm _ _).map _).nodup_iff.mpr ?_
  rw [List.map_append]
  refine (family false).append (family true) ?_
  intro c hc hc'
  obtain ⟨p, hp, rfl⟩ := List.mem_map.mp hc
  obtain ⟨q, hq, he⟩ := List.mem_map.mp hc'
  cases family_unique hg hl hr hp hq he.symm

theorem shares_of_passes (name : String) (threshold : Nat)
    (passes : Passes g root budget left.interface right.interface o channels chains ring opened) :
    Shares g (node name root threshold o left right) left right
      (takenPairs channels chains ring) := by
  have apart := siblings_apart hg hl hr hd
  have exposed : (node name root threshold o left right).interface.ports.map (·.origin) =
      (o.channels ++ o.chains).map (·.origin) := by
    simp only [node, interface, Interface.ports, List.map_append, List.map_map]
    rfl
  have once := passes.split.nodup_iff.mp apart
  refine ⟨links_of_passes hg hl hr passes, apart, exposed ▸ passes.split, fun chain => ?_⟩
  have hn : (node name root threshold o left right).name = name := rfl
  have family := siblings_nodup hg hl hr hd (hl.origins_nodup hg hd.of_append_left chain)
    (hr.origins_nodup hg hd.of_append_right chain)
  rw [family_node, hn]
  refine congrArg (List.map (expose name))
    (eq_filter_of_sublist (passes.sublist chain) family.of_map fun p hp => ?_)
  rw [decide_eq_true_eq]
  constructor
  · intro hopen htaken
    refine List.disjoint_of_nodup_append once (List.mem_map_of_mem ?_) htaken
    cases chain with
    | false => exact List.mem_append_left _ hopen
    | true => exact List.mem_append_right _ hopen
  · intro hfree
    cases List.mem_append.mp ((passes.origins chain).subset (List.mem_map_of_mem hp)) with
    | inl hopen =>
        obtain ⟨q, hq, he⟩ := List.mem_map.mp hopen
        exact List.inj_on_of_nodup_map family ((passes.sublist chain).subset hq) hp he ▸ hq
    | inr hlinked =>
        refine absurd ((orient_perm _).symm.subset ?_) hfree
        rw [List.flatMap_append]
        cases chain with
        | false => exact List.mem_append_left _ hlinked
        | true => exact List.mem_append_right _ hlinked

end Node

/-! ### The whole tree -/

/-- The ports that a node takes; a leaf takes none. -/
structure TakesAt (g : Graph α) (n : MergeTree α) (taken : List (PortPair α)) : Prop where
  node : ∀ left right, n.children = [left, right] → Shares g n left right taken
  leaf : n.children = [] → n.links = [] ∧ taken = []

theorem Assembled.takesAt {g : Graph α} (hg : g.Coherent) {root : Bool} {n : MergeTree α}
    (h : Assembled g root n) (hd : n.moduleNames.Nodup) : ∃ taken, TakesAt g n taken := by
  cases h with
  | module name => exact ⟨[], nofun, fun _ => ⟨rfl, rfl⟩⟩
  | placeholder name => exact ⟨[], nofun, fun _ => ⟨rfl, rfl⟩⟩
  | node hl hr ho =>
      obtain ⟨channels, chains, ring, opened, passes⟩ := reconcile_passes ho
      rw [moduleNames_node] at hd
      refine ⟨takenPairs channels chains ring, fun left right hc => ?_, nofun⟩
      cases hc
      exact shares_of_passes hg hl hr hd _ _ passes

/-- The ends that a module lists. -/
def endsOf (g : Graph α) (name : String) : List ConnectionId := (g.module? name).elim [] Module.ends

theorem origins_leaf {g : Graph α} (hg : g.Coherent) (name : String) :
    (leafInterface g name).ports.map (·.origin) = endsOf g name := by
  have shown {m : Module} (hm : (name, m) ∈ g.modules.entries) (chain : Bool) :
      ((m.family chain).filterMap (leafPort g name)).map (·.origin) = m.family chain := by
    have each (l : List ConnectionId) (hl : ∀ c ∈ l, g.Lists chain name c) :
        (l.filterMap (leafPort g name)).map (·.origin) = l := by
      induction l with
      | nil => rfl
      | cons c rest ih =>
          obtain ⟨hc, hrest⟩ := List.forall_mem_cons.mp hl
          obtain ⟨e, he, -⟩ := hg.listed hc
          have hport : leafPort g name c = some _ := congrArg (Option.map _) he
          rw [List.filterMap_cons_some hport, List.map_cons, ih hrest]
    exact each _ fun c hc => ⟨m, hm, hc⟩
  change ((leafInterface g name).family false ++ (leafInterface g name).family true).map _ = _
  rw [family_leaf, family_leaf, endsOf]
  cases hm : g.module? name with
  | none => rfl
  | some m =>
      have hm := NameMap.find?_eq_some.mp hm
      rw [Option.map_some, Option.map_some, Option.getD_some, Option.getD_some, List.map_append,
        shown hm, shown hm]
      rfl

/-- What the nodes of a tree take and what stays open on top are the ends of its modules. -/
theorem Assembled.conserved {g : Graph α} (hg : g.Coherent) {root : Bool} {t : MergeTree α}
    (h : Assembled g root t) {taken : MergeTree α → List (PortPair α)}
    (ht : ∀ n ∈ t.preorder, TakesAt g n (taken n)) :
    ((t.preorder.flatMap taken).flatMap pairOrigins ++ t.interface.ports.map (·.origin)).Perm
      (t.moduleNames.flatMap (endsOf g)) := by
  induction h with
  | module name =>
      have none := ((ht _ List.mem_cons_self).leaf rfl).2
      simp only [preorder, List.flatMap_cons, List.flatMap_nil, none, List.append_nil,
        List.nil_append, moduleNames_module, name_leaf]
      exact .of_eq (origins_leaf hg name)
  | placeholder name =>
      have none := ((ht _ List.mem_cons_self).leaf rfl).2
      simp only [preorder, List.flatMap_cons, List.flatMap_nil, none, List.append_nil,
        List.nil_append]
      exact .nil
  | @node root budget threshold name left right o hl hr ho ihl ihr =>
      rw [preorder_node] at ht
      obtain ⟨own, below⟩ := List.forall_mem_cons.mp ht
      have lefts := ihl fun n hn => below n (List.mem_append_left _ hn)
      have rights := ihr fun n hn => below n (List.mem_append_right _ hn)
      have split := (own.node left right rfl).split
      rw [preorder_node, moduleNames_node]
      apply List.perm_iff_count.mpr
      intro c
      have lefts := lefts.count_eq c
      have rights := rights.count_eq c
      have split := split.count_eq c
      simp only [List.map_append, List.count_append] at lefts rights split
      simp only [List.flatMap_cons, List.flatMap_append, List.count_append]
      omega

/-- The ports of a tree are conserved, at each of its nodes and from the modules up to the root.
`taken` names the ports that go into the links of a node. -/
structure PortsConserved (g : Graph α) (t : MergeTree α) (taken : MergeTree α → List (PortPair α)) :
    Prop where
  nodes : ∀ n ∈ t.preorder, TakesAt g n (taken n)
  /-- Every listed end is taken by one link or is open at the root, never both and never twice. -/
  ends : ((t.preorder.flatMap taken).flatMap pairOrigins ++ t.residual.map (·.origin)).Perm
    (g.modules.values.flatMap Module.ends)
  once : (g.modules.values.flatMap Module.ends).Nodup
  total : 2 * (t.preorder.flatMap MergeTree.links).length + t.residual.length =
    (g.modules.values.flatMap Module.ends).length

theorem TakesAt.length_links {g : Graph α} {n : MergeTree α} {taken : List (PortPair α)}
    (h : TakesAt g n taken) : (taken.flatMap pairOrigins).length = 2 * n.links.length := by
  have same : taken.length = n.links.length := by
    cases n with
    | module i =>
        obtain ⟨hlinks, htaken⟩ := h.leaf rfl
        rw [hlinks, htaken]
        rfl
    | placeholder name =>
        obtain ⟨hlinks, htaken⟩ := h.leaf rfl
        rw [hlinks, htaken]
        rfl
    | merge i links exported boundary left right =>
        exact (h.node left right rfl).links.length_eq.symm
  rw [← same]
  clear same h
  induction taken with
  | nil => rfl
  | cons p rest ih =>
      rw [List.flatMap_cons, List.length_append, ih, List.length_cons]
      simp only [pairOrigins, List.length_cons, List.length_nil]
      omega

theorem Assembled.portsConserved {g : Graph α} (hg : g.Coherent) {t : MergeTree α}
    (h : Assembled g true t) (hperm : t.moduleNames.Perm g.moduleNames)
    (hd : t.moduleNames.Nodup) : ∃ taken, PortsConserved g t taken := by
  have exists_taken : ∀ n, ∃ taken, n ∈ t.preorder → TakesAt g n taken := by
    intro n
    by_cases hn : n ∈ t.preorder
    · have hdn := hd.sublist (moduleNames_sublist hn)
      obtain ⟨taken, htaken⟩ : ∃ taken, TakesAt g n taken := by
        cases h.of_mem hn with
        | inl e => exact (e ▸ h).takesAt hg hdn
        | inr hn => exact hn.takesAt hg hdn
      exact ⟨taken, fun _ => htaken⟩
    · exact ⟨[], fun h => absurd h hn⟩
  obtain ⟨taken, ht⟩ := Classical.skolem.mp exists_taken
  have ends : ((t.preorder.flatMap taken).flatMap pairOrigins ++ t.residual.map (·.origin)).Perm
      (g.modules.values.flatMap Module.ends) := by
    refine (h.conserved hg ht).trans ((hperm.flatMap_right _).trans (.of_eq ?_))
    exact g.flatMap_moduleNames Module.ends
  refine ⟨taken, ht, ends, hg.ends_nodup, ?_⟩
  have length (l : List (MergeTree α)) (hl : ∀ n ∈ l, TakesAt g n (taken n)) :
      ((l.flatMap taken).flatMap pairOrigins).length = 2 * (l.flatMap MergeTree.links).length := by
    induction l with
    | nil => rfl
    | cons n rest ih =>
        obtain ⟨hn, hrest⟩ := List.forall_mem_cons.mp hl
        simp only [List.flatMap_cons, List.flatMap_append, List.length_append, ih hrest,
          hn.length_links]
        omega
  rw [← ends.length_eq, List.length_append, List.length_map, length t.preorder ht]

end MergeTree

/-- Whatever the oracle answers, a tree that is built conserves the ports of the graph. -/
theorem Graph.Kept.Reachable.ports_conserved [Scalar α] {s : Graph.Kept α} (h : s.Reachable)
    (hints : MergeTree.Hints α) (threshold : Nat) (t : MergeTree α)
    (hb : MergeTree.build s.graph hints threshold = .ok t) :
    ∃ taken, MergeTree.PortsConserved s.graph t taken := by
  obtain ⟨ha, hperm, hd⟩ := MergeTree.assembled_of_build hb
  exact ha.portsConserved h.current.consistent.coherent hperm hd

/-- Of the three ends one link takes two, and the third one is open at the root. -/
theorem Graph.contested_ports_conserved : ∃ t taken,
    MergeTree.build contested splitHead 4 = .ok t ∧ MergeTree.PortsConserved contested t taken ∧
      t.residual.length = 1 ∧ (t.preorder.flatMap MergeTree.links).length = 1 := by
  obtain ⟨t, hb, hopen⟩ := contested_build
  have reachable : (Kept.derive contested).Reachable := derive_assembly_reachable (by cbv)
  obtain ⟨taken, conserved⟩ := reachable.ports_conserved splitHead 4 t hb
  have residual : t.residual.length = 1 := by
    rw [← List.length_map, hopen]
    rfl
  have listed : (contested.modules.values.flatMap Module.ends).length = 3 := by cbv
  have total : 2 * (t.preorder.flatMap MergeTree.links).length + t.residual.length =
      (contested.modules.values.flatMap Module.ends).length := conserved.total
  rw [residual, listed] at total
  exact ⟨t, taken, hb, conserved, residual, by omega⟩

end HardwareLinker
