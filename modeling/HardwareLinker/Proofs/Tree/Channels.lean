import Mathlib.Data.List.Nodup
import HardwareLinker.Proofs.Tree.Links
import HardwareLinker.Proofs.Tree.Total

/-!
Channels of a merge tree. A channel is open at a node exactly when the node holds its module and not
the module of its partner, so two partners meet at the lowest node that holds both and are linked
there. The channel links of a whole tree are therefore the matched channel pairs of the graph, one
for one.
-/

namespace HardwareLinker

variable {α : Type}

/-! ### One pass over the channels of two siblings -/

namespace Reconcile

open MergeTree

theorem origins_childPorts (child : String) (ports : List (Port α)) :
    (childPorts child ports).map (·.port.origin) = ports.map (·.origin) := by
  simp [childPorts, Function.comp_def]

theorem mem_origins_childPorts {child : String} {ports : List (Port α)} {c : ConnectionId} :
    (∃ a ∈ childPorts child ports, a.port.origin = c) ↔ c ∈ ports.map (·.origin) := by
  rw [← origins_childPorts child]
  exact List.mem_map.symm

theorem partner_of_pairsChannel {partner? : ConnectionId → Option ConnectionId}
    {a b : ChildPort α} (h : pairsChannel partner? a b = .ok true) :
    partner? a.port.origin = some b.port.origin ∧ Fits a b := by
  unfold pairsChannel at h
  split at h
  · next hp =>
    split at h
    · cases h
    · next hpairs => exact ⟨beq_iff_eq.mp hp, (fits_of_pairs hpairs).1⟩
    · cases h
  · cases h

theorem not_partner_of_pairsChannel {partner? : ConnectionId → Option ConnectionId}
    {a b : ChildPort α} (h : pairsChannel partner? a b = .ok false) :
    partner? a.port.origin ≠ some b.port.origin := by
  intro hp
  unfold pairsChannel at h
  rw [if_pos (beq_iff_eq.mpr hp)] at h
  split at h <;> cases h

/-- What a pass over channels links and leaves open, when every port stands for its own end. -/
structure PartnersPaired (partner? : ConnectionId → Option ConnectionId)
    (left right : List (ChildPort α)) (out : Paired α) : Prop where
  sides : ∀ p ∈ out.pairs, p.1 ∈ left ∧ p.2 ∈ right ∧
    partner? p.1.port.origin = some p.2.port.origin ∧ Fits p.1 p.2
  all : ∀ a ∈ left, ∀ b ∈ right, partner? a.port.origin = some b.port.origin →
    (a, b) ∈ out.pairs
  nodup : out.pairs.Nodup
  openLeft : ∀ a, a ∈ out.left ↔
    a ∈ left ∧ ∀ b ∈ right, partner? a.port.origin ≠ some b.port.origin
  openRight : ∀ b, b ∈ out.right ↔
    b ∈ right ∧ ∀ a ∈ left, partner? a.port.origin ≠ some b.port.origin

theorem eq_of_origin_eq {ports : List (ChildPort α)}
    (h : (ports.map (·.port.origin)).Nodup) {a b : ChildPort α} (ha : a ∈ ports) (hb : b ∈ ports)
    (he : a.port.origin = b.port.origin) : a = b := List.inj_on_of_nodup_map h ha hb he

theorem partnersPaired {partner? : ConnectionId → Option ConnectionId}
    (symm : ∀ {c p : ConnectionId}, partner? c = some p → partner? p = some c)
    {left right : List (ChildPort α)} {out : Paired α}
    (hl : (left.map (·.port.origin)).Nodup) (hr : (right.map (·.port.origin)).Nodup)
    (h : pairChannels partner? left right = .ok out) :
    PartnersPaired partner? left right out := by
  have hc := crossing_of_pairAcross h
  have lefts : (out.pairs.map Prod.fst ++ out.left).Nodup := hc.lefts.nodup_iff.mpr hl.of_map
  have rights : (out.pairs.map Prod.snd ++ out.right).Nodup := hc.rights.nodup_iff.mpr hr.of_map
  have sides : ∀ p ∈ out.pairs, p.1 ∈ left ∧ p.2 ∈ right ∧
      partner? p.1.port.origin = some p.2.port.origin ∧ Fits p.1 p.2 := fun p hp =>
    ⟨hc.lefts.subset (List.mem_append_left _ (List.mem_map_of_mem hp)),
      hc.rights.subset (List.mem_append_left _ (List.mem_map_of_mem hp)),
      partner_of_pairsChannel (hc.passed p hp)⟩
  have all : ∀ a ∈ left, ∀ b ∈ right, partner? a.port.origin = some b.port.origin →
      (a, b) ∈ out.pairs := by
    intro a ha b hb hp
    rcases List.mem_append.mp (hc.lefts.symm.subset ha) with hm | hm
    · obtain ⟨⟨a', b'⟩, hin, rfl⟩ := List.mem_map.mp hm
      obtain ⟨-, hb', hp', -⟩ := sides _ hin
      rw [hp] at hp'
      cases eq_of_origin_eq hr hb hb' (Option.some.inj hp')
      exact hin
    · -- Neither port was paired, so the pass has compared the two.
      rcases List.mem_append.mp (hc.rights.symm.subset hb) with hm' | hm'
      · obtain ⟨⟨a', b'⟩, hin, rfl⟩ := List.mem_map.mp hm'
        obtain ⟨ha', -, hp', -⟩ := sides _ hin
        have hback := symm hp'
        rw [symm hp] at hback
        cases eq_of_origin_eq hl ha ha' (Option.some.inj hback)
        exact hin
      · rcases hc.unpaired a hm with ⟨_, _, -, hskip⟩ | hnone
        · cases hskip
        · exact absurd hp (not_partner_of_pairsChannel (hnone b hm'))
  refine ⟨sides, all, lefts.of_append_left.of_map, fun a => ⟨fun hm => ?_, fun hm => ?_⟩,
    fun b => ⟨fun hm => ?_, fun hm => ?_⟩⟩
  · have ha := hc.leftOrder.subset hm
    refine ⟨ha, fun b hb hp => ?_⟩
    exact List.disjoint_of_nodup_append lefts (List.mem_map_of_mem (all a ha b hb hp)) hm
  · refine (List.mem_append.mp (hc.lefts.symm.subset hm.1)).resolve_left fun hp => ?_
    obtain ⟨p, hin, rfl⟩ := List.mem_map.mp hp
    exact hm.2 p.2 (sides p hin).2.1 (sides p hin).2.2.1
  · have hb := hc.rightOrder.subset hm
    refine ⟨hb, fun a ha hp => ?_⟩
    exact List.disjoint_of_nodup_append rights (List.mem_map_of_mem (all a ha b hb hp)) hm
  · refine (List.mem_append.mp (hc.rights.symm.subset hm.1)).resolve_left fun hp => ?_
    obtain ⟨p, hin, rfl⟩ := List.mem_map.mp hp
    exact hm.2 p.1 (sides p hin).1 (sides p hin).2.2.1

end Reconcile

namespace MergeTree

theorem Assembled.childPorts_nodup {g : Graph α} (hg : g.Coherent) {root : Bool} {t : MergeTree α}
    (h : Assembled g root t) (hd : t.moduleNames.Nodup) :
    ((Reconcile.childPorts t.interface.name t.interface.channels).map (·.port.origin)).Nodup := by
  rw [Reconcile.origins_childPorts]
  exact h.origins_nodup hg hd false

theorem partnersPaired_of_passes {g : Graph α} (hg : g.Sound) {root : Bool} {budget : Nat}
    {left right : MergeTree α} {o : Reconcile.Outcome α} {channels chains : Paired α}
    {ring : List (PortPair α)} {opened : List (ChildPort α)} (hl : Assembled g false left)
    (hr : Assembled g false right) (hd : (left.moduleNames ++ right.moduleNames).Nodup)
    (passes : Reconcile.Passes g root budget left.interface right.interface o channels chains ring
      opened) :
    Reconcile.PartnersPaired g.partner?
      (Reconcile.childPorts left.interface.name left.interface.channels)
      (Reconcile.childPorts right.interface.name right.interface.channels) channels :=
  Reconcile.partnersPaired hg.partner_symm (hl.childPorts_nodup hg.coherent hd.of_append_left)
    (hr.childPorts_nodup hg.coherent hd.of_append_right) passes.channelPass

/-! ### Open channels -/

/-- A channel whose partner is in the same module cannot be, so a leaf shows all its channels. -/
theorem not_lists_partner {g : Graph α} (hg : g.Sound) {name : String} {c p : ConnectionId}
    (hc : g.Lists false name c) (hp : g.partner? c = some p) : ¬ g.Lists false name p := by
  intro hpl
  obtain ⟨e, he, hep⟩ := Graph.partner?_eq_some.mp hp
  obtain ⟨⟨chain, A, B, hA, hB, hne⟩, -⟩ := hg.partners he hep
  obtain ⟨rfl, rfl⟩ := hg.coherent.owner_unique hA hc
  exact hne rfl (hg.coherent.owner_unique hB hpl).1.symm

/-- The partner of a channel that is held elsewhere does not have its own partner beside it. -/
theorem partner_elsewhere {g : Graph α} (hg : g.Sound) {t u : MergeTree α}
    (apart : ∀ {x}, t.Holds g false x → u.Holds g false x → False) {c p : ConnectionId}
    (hp : g.partner? c = some p) (hc : t.Holds g false c) :
    ∀ q, g.partner? p = some q → ¬ u.Holds g false q := by
  intro q hq hq'
  rw [hg.partner_symm hp] at hq
  cases hq
  exact apart hc hq'

theorem mem_origins_node {g : Graph α} {name : String} {root : Bool} {budget threshold : Nat}
    {left right : MergeTree α} {o : Reconcile.Outcome α} {channels chains : Paired α}
    {ring : List (PortPair α)} {opened : List (ChildPort α)}
    (passes : Reconcile.Passes g root budget left.interface right.interface o channels chains ring
      opened) {c : ConnectionId} :
    c ∈ ((node name root threshold o left right).interface.family false).map (·.origin) ↔
      (∃ a ∈ channels.left, a.port.origin = c) ∨ ∃ b ∈ channels.right, b.port.origin = c := by
  have horigin : (fun p : Port α => p.origin) ∘ expose name = fun p => p.origin := rfl
  rw [family_node, if_neg Bool.false_ne_true, passes.openChannels, List.map_map, horigin,
    List.map_map]
  simp only [List.mem_map, List.mem_append, or_and_right, exists_or, Function.comp_apply]

/-- A channel is open at a node if and only if the node holds it and not its partner. -/
theorem Assembled.open_channel {g : Graph α} (hg : g.Sound) {root : Bool} {t : MergeTree α}
    (h : Assembled g root t) (hd : t.moduleNames.Nodup) {c : ConnectionId} :
    c ∈ (t.interface.family false).map (·.origin) ↔
      t.Holds g false c ∧ ∀ p, g.partner? c = some p → ¬ t.Holds g false p := by
  induction h generalizing c with
  | module name =>
      simp only [holds_leaf]
      exact (mem_origins_leaf hg.coherent).trans
        ⟨fun hc => ⟨hc, fun p hp => not_lists_partner hg hc hp⟩, And.left⟩
  | placeholder name =>
      refine iff_of_false List.not_mem_nil ?_
      rintro ⟨⟨A, hA, -⟩, -⟩
      cases hA
  | @node _ _ _ _ left right _ hl hr ho ihl ihr =>
      obtain ⟨channels, _, _, _, passes⟩ := Reconcile.reconcile_passes ho
      rw [moduleNames_node] at hd
      have paired := partnersPaired_of_passes hg hl hr hd passes
      have openLeft {c : ConnectionId} := ihl hd.of_append_left (c := c)
      have openRight {c : ConnectionId} := ihr hd.of_append_right (c := c)
      have apart {c : ConnectionId} (h : left.Holds g false c) (h' : right.Holds g false c) :
          False := not_holds_both hg.coherent hd h h'
      have shownLeft {c : ConnectionId} : (∃ a ∈ Reconcile.childPorts left.interface.name
          left.interface.channels, a.port.origin = c) ↔
            left.Holds g false c ∧ ∀ p, g.partner? c = some p → ¬ left.Holds g false p :=
        Reconcile.mem_origins_childPorts.trans openLeft
      have shownRight {c : ConnectionId} : (∃ a ∈ Reconcile.childPorts right.interface.name
          right.interface.channels, a.port.origin = c) ↔
            right.Holds g false c ∧ ∀ p, g.partner? c = some p → ¬ right.Holds g false p :=
        Reconcile.mem_origins_childPorts.trans openRight
      rw [mem_origins_node passes]
      simp only [holds_node]
      constructor
      · rintro (⟨a, ha, rfl⟩ | ⟨b, hb, rfl⟩)
        · obtain ⟨ha, hnone⟩ := (paired.openLeft a).mp ha
          obtain ⟨hh, hp⟩ := shownLeft.mp ⟨a, ha, rfl⟩
          refine ⟨.inl hh, fun p hpp => not_or.mpr ⟨hp p hpp, fun hr => ?_⟩⟩
          obtain ⟨b, hb, rfl⟩ := shownRight.mpr ⟨hr, partner_elsewhere hg apart hpp hh⟩
          exact hnone b hb hpp
        · obtain ⟨hb, hnone⟩ := (paired.openRight b).mp hb
          obtain ⟨hh, hp⟩ := shownRight.mp ⟨b, hb, rfl⟩
          refine ⟨.inr hh, fun p hpp => not_or.mpr ⟨fun hl => ?_, hp p hpp⟩⟩
          obtain ⟨a, ha, rfl⟩ := shownLeft.mpr
            ⟨hl, partner_elsewhere hg (fun h h' => apart h' h) hpp hh⟩
          exact hnone a ha (hg.partner_symm hpp)
      · rintro ⟨hh | hh, hp⟩
        · obtain ⟨a, ha, rfl⟩ := shownLeft.mpr ⟨hh, fun p hpp => (not_or.mp (hp p hpp)).1⟩
          refine .inl ⟨a, (paired.openLeft a).mpr ⟨ha, fun b hb hab => ?_⟩, rfl⟩
          exact (not_or.mp (hp _ hab)).2 (shownRight.mp ⟨b, hb, rfl⟩).1
        · obtain ⟨b, hb, rfl⟩ := shownRight.mpr ⟨hh, fun p hpp => (not_or.mp (hp p hpp)).2⟩
          refine .inr ⟨b, (paired.openRight b).mpr ⟨hb, fun a ha hab => ?_⟩, rfl⟩
          exact (not_or.mp (hp _ (hg.partner_symm hab))).1 (shownLeft.mp ⟨a, ha, rfl⟩).1

/-! ### Channel links -/

end MergeTree

/-- A source end of a channel and the sink end that it is matched with. -/
def Graph.ChannelPair (g : Graph α) (s k : ConnectionId) : Prop :=
  ∃ e, g.connection? s = some e ∧ e.kind.isChain = false ∧ e.kind.isSource = true ∧
    e.partner = some k

namespace MergeTree

/-- No node below holds both modules. -/
structure LowestCommon (n : MergeTree α) (A B : String) : Prop where
  first : A ∈ n.moduleNames
  second : B ∈ n.moduleNames
  lowest : ∀ m ∈ n.preorder, A ∈ m.moduleNames → B ∈ m.moduleNames → m = n

/-- A link of a node joins the modules that own two ends, from one child to the other. -/
structure Joins (g : Graph α) (n : MergeTree α) (l : Link) (s k : ConnectionId) : Prop where
  name : ∃ e, g.connection? s = some e ∧ e.name = l.name
  sourceModule : g.owner? s = some l.sourceModule
  sinkModule : g.owner? k = some l.sinkModule
  lowest : n.LowestCommon l.sourceModule l.sinkModule
  children : ∃ a b, (n.children = [a, b] ∨ n.children = [b, a]) ∧
    l.source = a.name ∧ l.sourceModule ∈ a.moduleNames ∧
    l.sink = b.name ∧ l.sinkModule ∈ b.moduleNames

/-- Two modules on different sides of a node have it as their lowest common ancestor. -/
theorem lowestCommon_node {name : String} {root : Bool} {threshold : Nat}
    {o : Reconcile.Outcome α} {left right : MergeTree α}
    (hd : (left.moduleNames ++ right.moduleNames).Nodup) {A B : String}
    (h : A ∈ left.moduleNames ∧ B ∈ right.moduleNames ∨
      A ∈ right.moduleNames ∧ B ∈ left.moduleNames) :
    (node name root threshold o left right).LowestCommon A B := by
  have apart := List.disjoint_of_nodup_append hd
  constructor
  · rw [moduleNames_node]
    exact List.mem_append.mpr (h.imp And.left And.left)
  · rw [moduleNames_node]
    exact List.mem_append.mpr (h.symm.imp And.right And.right)
  · intro m hm hA hB
    rw [preorder_node] at hm
    rcases List.mem_cons.mp hm with rfl | hm
    · rfl
    · refine False.elim ?_
      rcases List.mem_append.mp hm with hm | hm <;> have hsub := (moduleNames_sublist hm).subset
      · rcases h with ⟨-, h⟩ | ⟨h, -⟩
        · exact apart (hsub hB) h
        · exact apart (hsub hA) h
      · rcases h with ⟨h, -⟩ | ⟨-, h⟩
        · exact apart h (hsub hA)
        · exact apart h (hsub hB)

def sourceFirst (p : PortPair α) : ConnectionId × ConnectionId :=
  if p.1.port.connection.kind.isSource then (p.1.port.origin, p.2.port.origin)
  else (p.2.port.origin, p.1.port.origin)

theorem Holds.owner {g : Graph α} (hg : g.Sound) {t : MergeTree α} {chain : Bool}
    {c : ConnectionId} (h : t.Holds g chain c) : ∃ A ∈ t.moduleNames, g.owner? c = some A := by
  obtain ⟨A, hA, hc⟩ := h
  obtain ⟨e, he, rfl, -⟩ := hg.coherent.listed hc
  exact ⟨e.owner, hA, by rw [Graph.owner?, he]; rfl⟩

section Node

variable {g : Graph α} (hg : g.Sound) {root : Bool} {budget threshold : Nat} {name : String}
  {left right : MergeTree α} {o : Reconcile.Outcome α} {channels chains : Paired α}
  {ring : List (PortPair α)} {opened : List (ChildPort α)} (hl : Assembled g false left)
  (hr : Assembled g false right) (hd : (left.moduleNames ++ right.moduleNames).Nodup)
  (passes : Reconcile.Passes g root budget left.interface right.interface o channels chains ring
    opened)

include hg hl hr hd passes

theorem channelPair_ends {p : PortPair α} (hp : p ∈ channels.pairs) :
    p.1.child = left.name ∧ left.Holds g false p.1.port.origin ∧
    p.2.child = right.name ∧ right.Holds g false p.2.port.origin ∧
    ∃ e f, g.connection? p.1.port.origin = some e ∧ p.1.port.StandsFor e ∧
      g.connection? p.2.port.origin = some f ∧ p.2.port.StandsFor f ∧
      e.partner = some p.2.port.origin ∧ f.partner = some p.1.port.origin ∧
      e.kind.isChain = false ∧ f.kind.isChain = false ∧ e.kind.isSource = !f.kind.isSource := by
  obtain ⟨h₁, h₂, hpartner, hfits⟩ :=
    (partnersPaired_of_passes hg hl hr hd passes).sides p hp
  obtain ⟨hc₁, h₁⟩ := Reconcile.mem_childPorts.mp h₁
  obtain ⟨hc₂, h₂⟩ := Reconcile.mem_childPorts.mp h₂
  obtain ⟨hh₁, e, he, hse⟩ := hl.port_spec (show p.1.port ∈ left.interface.family false from h₁)
  obtain ⟨hh₂, f, hf, hsf⟩ := hr.port_spec (show p.2.port ∈ right.interface.family false from h₂)
  obtain ⟨e', he', hep⟩ := Graph.partner?_eq_some.mp hpartner
  obtain ⟨f', hf', hfp⟩ := Graph.partner?_eq_some.mp (hg.partner_symm hpartner)
  rw [he] at he'
  rw [hf] at hf'
  cases he'
  cases hf'
  have hk := hfits.kinds
  rw [hse.kind, hsf.kind] at hk
  have ⟨_, _, hA⟩ := hh₁
  have ⟨_, _, hB⟩ := hh₂
  refine ⟨hc₁, hh₁, hc₂, hh₂, e, f, he, hse, hf, hsf, hep, hfp, ?_, ?_, ?_⟩
  · exact (hg.coherent.listed_on_owner hA he).2.1
  · exact (hg.coherent.listed_on_owner hB hf).2.1
  · exact Bool.eq_not.mpr (Connection.Kind.complements_iff.mp hk).2

/-- A node links the channel pairs between its two sides. -/
theorem mem_sourceFirst {s k : ConnectionId} :
    (s, k) ∈ channels.pairs.map sourceFirst ↔ g.ChannelPair s k ∧
      (left.Holds g false s ∧ right.Holds g false k ∨
        right.Holds g false s ∧ left.Holds g false k) := by
  have paired := partnersPaired_of_passes hg hl hr hd passes
  constructor
  · intro h
    obtain ⟨p, hp, hsk⟩ := List.mem_map.mp h
    obtain ⟨-, h₁, -, h₂, e, f, he, hse, hf, hsf, hep, hfp, hce, hcf, hk⟩ :=
      channelPair_ends hg hl hr hd passes hp
    unfold sourceFirst at hsk
    rw [hse.kind] at hsk
    split at hsk
    · next hsource =>
      cases hsk
      exact ⟨⟨e, he, hce, hsource, hep⟩, .inl ⟨h₁, h₂⟩⟩
    · next hsource =>
      cases hsk
      refine ⟨⟨f, hf, hcf, ?_, hfp⟩, .inr ⟨h₂, h₁⟩⟩
      simpa [hk] using hsource
  · rintro ⟨⟨e, he, hce, hse, hep⟩, hsides⟩
    have hpartner : g.partner? s = some k := Graph.partner?_eq_some.mpr ⟨e, he, hep⟩
    have shown {t u : MergeTree α} {c d : ConnectionId} (ht : Assembled g false t)
        (htd : t.moduleNames.Nodup) (hc : t.Holds g false c) (hd : u.Holds g false d)
        (hp : g.partner? c = some d)
        (apart : ∀ {x}, u.Holds g false x → t.Holds g false x → False) :
        ∃ a ∈ Reconcile.childPorts t.interface.name t.interface.channels, a.port.origin = c :=
      Reconcile.mem_origins_childPorts.mpr ((ht.open_channel hg htd).mpr
        ⟨hc, partner_elsewhere hg apart (hg.partner_symm hp) hd⟩)
    have apart {x : ConnectionId} (h : left.Holds g false x) (h' : right.Holds g false x) :
        False := not_holds_both hg.coherent hd h h'
    rcases hsides with ⟨hs, hk⟩ | ⟨hs, hk⟩
    · obtain ⟨a, ha, rfl⟩ := shown hl hd.of_append_left hs hk hpartner fun h h' => apart h' h
      obtain ⟨b, hb, rfl⟩ := shown hr hd.of_append_right hk hs (hg.partner_symm hpartner) apart
      have hp := paired.all a ha b hb hpartner
      obtain ⟨-, -, -, -, e', f, he', hse', -⟩ := channelPair_ends hg hl hr hd passes hp
      rw [he] at he'
      cases he'
      exact List.mem_map.mpr ⟨(a, b), hp, if_pos (by rw [hse'.kind, hse])⟩
    · obtain ⟨a, ha, rfl⟩ := shown hl hd.of_append_left hk hs (hg.partner_symm hpartner)
        fun h h' => apart h' h
      obtain ⟨b, hb, rfl⟩ := shown hr hd.of_append_right hs hk hpartner apart
      have hp := paired.all a ha b hb (hg.partner_symm hpartner)
      obtain ⟨-, -, -, -, e', f, he', hse', hf, -, -, -, -, -, hk'⟩ :=
        channelPair_ends hg hl hr hd passes hp
      rw [he] at hf
      cases hf
      refine List.mem_map.mpr ⟨(a, b), hp, if_neg ?_⟩
      rw [hse'.kind, hk', hse]
      exact Bool.false_ne_true

theorem sourceFirst_nodup : (channels.pairs.map sourceFirst).Nodup := by
  have paired := partnersPaired_of_passes hg hl hr hd passes
  refine List.Nodup.map_on (fun p hp q hq he => ?_) paired.nodup
  obtain ⟨hp₁, hp₂, -⟩ := paired.sides p hp
  obtain ⟨hq₁, hq₂, -⟩ := paired.sides q hq
  obtain ⟨-, hpl, -, hpr, -⟩ := channelPair_ends hg hl hr hd passes hp
  obtain ⟨-, hql, -, hqr, -⟩ := channelPair_ends hg hl hr hd passes hq
  have nodupL := hl.childPorts_nodup hg.coherent hd.of_append_left
  have nodupR := hr.childPorts_nodup hg.coherent hd.of_append_right
  have same (h₁ : p.1.port.origin = q.1.port.origin) (h₂ : p.2.port.origin = q.2.port.origin) :
      p = q :=
    Prod.ext (Reconcile.eq_of_origin_eq nodupL hp₁ hq₁ h₁)
      (Reconcile.eq_of_origin_eq nodupR hp₂ hq₂ h₂)
  have apart {x : ConnectionId} (h : left.Holds g false x) (h' : right.Holds g false x) :
      False := not_holds_both hg.coherent hd h h'
  unfold sourceFirst at he
  split at he <;> split at he <;> obtain ⟨h₁, h₂⟩ := Prod.mk.inj he
  · exact same h₁ h₂
  · exact (apart (h₁ ▸ hpl) hqr).elim
  · exact (apart (h₂ ▸ hpl) hqr).elim
  · exact same h₂ h₁

theorem joins_of_pair {p : PortPair α} (hp : p ∈ channels.pairs) {l : Link}
    (hlink : l.plain = Reconcile.link g.owner? .channel p) :
    Joins g (node name root threshold o left right) l (sourceFirst p).1 (sourceFirst p).2 := by
  obtain ⟨hc₁, h₁, hc₂, h₂, e, f, he, hse, hf, hsf, -⟩ := channelPair_ends hg hl hr hd passes hp
  obtain ⟨A, hA, hoA⟩ := h₁.owner hg
  obtain ⟨B, hB, hoB⟩ := h₂.owner hg
  obtain ⟨family, lname, source, sink, sourceModule, sinkModule, buffered⟩ := l
  unfold sourceFirst
  by_cases hsource : p.1.port.connection.kind.isSource = true
  · rw [Reconcile.link_of_source hsource] at hlink
    rw [if_pos hsource]
    simp only [Link.plain, Link.mk.injEq, hoA, hoB, Option.getD_some, hse.name] at hlink
    obtain ⟨-, rfl, rfl, rfl, rfl, rfl, -⟩ := hlink
    exact ⟨⟨e, he, rfl⟩, hoA, hoB, lowestCommon_node hd (.inl ⟨hA, hB⟩),
      left, right, .inl rfl, hc₁, hA, hc₂, hB⟩
  · rw [Reconcile.link_of_sink hsource] at hlink
    rw [if_neg hsource]
    simp only [Link.plain, Link.mk.injEq, hoA, hoB, Option.getD_some, hsf.name] at hlink
    obtain ⟨-, rfl, rfl, rfl, rfl, rfl, -⟩ := hlink
    exact ⟨⟨f, hf, rfl⟩, hoB, hoA, lowestCommon_node hd (.inr ⟨hB, hA⟩),
      right, left, .inr rfl, hc₂, hB, hc₁, hA⟩

end Node

/-- The channel pairs whose ends a tree holds. -/
structure ChannelsLinked (t : MergeTree α) (g : Graph α)
    (pairs : List (ConnectionId × ConnectionId)) : Prop where
  nodup : pairs.Nodup
  mem : ∀ s k, (s, k) ∈ pairs ↔
    g.ChannelPair s k ∧ t.Holds g false s ∧ t.Holds g false k
  joined : List.Forall₂ (fun placed ends => Joins g placed.1 placed.2 ends.1 ends.2)
    (t.placedLinks .channel) pairs

theorem Assembled.channelsLinked {g : Graph α} (hg : g.Sound) {root : Bool} {t : MergeTree α}
    (h : Assembled g root t) (hd : t.moduleNames.Nodup) : ∃ pairs, t.ChannelsLinked g pairs := by
  induction h with
  | module name =>
      refine ⟨[], .nil, fun s k => iff_of_false List.not_mem_nil ?_, .nil⟩
      rintro ⟨⟨e, he, -, -, hp⟩, hs, hk⟩
      exact not_lists_partner hg (holds_leaf.mp hs) (Graph.partner?_eq_some.mpr ⟨e, he, hp⟩)
        (holds_leaf.mp hk)
  | placeholder name =>
      refine ⟨[], .nil, fun s k => iff_of_false List.not_mem_nil ?_, .nil⟩
      rintro ⟨-, ⟨A, hA, -⟩, -⟩
      cases hA
  | @node _ _ _ _ left right _ hl hr ho ihl ihr =>
      obtain ⟨channels, _, _, _, passes⟩ := Reconcile.reconcile_passes ho
      rw [moduleNames_node] at hd
      obtain ⟨pairsL, linkedL⟩ := ihl hd.of_append_left
      obtain ⟨pairsR, linkedR⟩ := ihr hd.of_append_right
      have own {s k : ConnectionId} := mem_sourceFirst hg hl hr hd passes (s := s) (k := k)
      have apart {c : ConnectionId} (h : left.Holds g false c) (h' : right.Holds g false c) :
          False := not_holds_both hg.coherent hd h h'
      refine ⟨channels.pairs.map sourceFirst ++ (pairsL ++ pairsR), ?_, fun s k => ?_, ?_⟩
      · refine (sourceFirst_nodup hg hl hr hd passes).append
          (linkedL.nodup.append linkedR.nodup ?_) ?_
        · rintro ⟨s, k⟩ hsl hsr
          exact apart ((linkedL.mem s k).mp hsl).2.1 ((linkedR.mem s k).mp hsr).2.1
        · rintro ⟨s, k⟩ hown hside
          obtain ⟨-, ⟨hs, hk⟩ | ⟨hs, hk⟩⟩ := own.mp hown
          · rcases List.mem_append.mp hside with h | h
            · exact apart ((linkedL.mem s k).mp h).2.2 hk
            · exact apart hs ((linkedR.mem s k).mp h).2.1
          · rcases List.mem_append.mp hside with h | h
            · exact apart ((linkedL.mem s k).mp h).2.1 hs
            · exact apart hk ((linkedR.mem s k).mp h).2.2
      · rw [List.mem_append, List.mem_append, own, linkedL.mem, linkedR.mem, holds_node, holds_node]
        constructor
        · rintro (⟨hp, ⟨hs, hk⟩ | ⟨hs, hk⟩⟩ | ⟨hp, hs, hk⟩ | ⟨hp, hs, hk⟩)
          · exact ⟨hp, .inl hs, .inr hk⟩
          · exact ⟨hp, .inr hs, .inl hk⟩
          · exact ⟨hp, .inl hs, .inl hk⟩
          · exact ⟨hp, .inr hs, .inr hk⟩
        · rintro ⟨hp, hs | hs, hk | hk⟩
          · exact .inr (.inl ⟨hp, hs, hk⟩)
          · exact .inl ⟨hp, .inl ⟨hs, hk⟩⟩
          · exact .inl ⟨hp, .inr ⟨hs, hk⟩⟩
          · exact .inr (.inr ⟨hp, hs, hk⟩)
      · rw [placedLinks_node]
        refine List.rel_append (List.forall₂_map_right_iff.mpr ?_)
          (List.rel_append linkedL.joined linkedR.joined)
        refine forall₂_of_plain_eq (passes.plain_links .channel) fun p hp l hlink => ?_
        exact joins_of_pair hg hl hr hd passes hp hlink

end MergeTree

/-- The channel links of a merge tree are the matched channel pairs of the graph, one for one, and
what stays open at the root are the channels that the graph left unmatched. -/
theorem Graph.Reachable.channel_links [Scalar α] {g : Graph α} (h : g.Reachable)
    {hints : MergeTree.Hints α} {threshold : Nat} {t : MergeTree α}
    (hb : MergeTree.build g hints threshold = .ok t) :
    (∃ pairs : List (ConnectionId × ConnectionId), pairs.Nodup ∧
      (∀ s k, (s, k) ∈ pairs ↔ g.ChannelPair s k) ∧
      List.Forall₂ (fun placed ends => MergeTree.Joins g placed.1 placed.2 ends.1 ends.2)
        (t.placedLinks .channel) pairs) ∧
    (t.interface.channels.map (·.origin)).Nodup ∧
    ∀ c, c ∈ t.interface.channels.map (·.origin) ↔
      ∃ name e, g.Lists false name c ∧ g.connection? c = some e ∧ e.matched = false := by
  have hg := h.sound
  obtain ⟨ha, hperm, hd⟩ := MergeTree.assembled_of_build hb
  have holds {c : ConnectionId} : t.Holds g false c ↔ ∃ name, g.Lists false name c := by
    refine ⟨fun ⟨A, _, hc⟩ => ⟨A, hc⟩, fun ⟨A, hc⟩ => ⟨A, hperm.symm.subset ?_, hc⟩⟩
    obtain ⟨m, hm, -⟩ := hc
    exact NameMap.mem_keys_of_mem hm
  have listed {c p : ConnectionId} {e : Connection α} (he : g.connection? c = some e)
      (hp : e.partner = some p) (hk : e.kind.isChain = false) :
      t.Holds g false c ∧ t.Holds g false p := by
    obtain ⟨⟨chain, A, B, hA, hB, -⟩, -⟩ := hg.partners he hp
    obtain ⟨-, hchain, -⟩ := hg.coherent.listed_on_owner hA he
    rw [hk] at hchain
    exact ⟨holds.mpr ⟨A, hchain ▸ hA⟩, holds.mpr ⟨B, hchain ▸ hB⟩⟩
  obtain ⟨pairs, linked⟩ := ha.channelsLinked hg hd
  refine ⟨⟨pairs, linked.nodup, fun s k => (linked.mem s k).trans ⟨And.left, fun hp => ⟨hp, ?_⟩⟩,
    linked.joined⟩, ha.origins_nodup hg.coherent hd false, fun c => ?_⟩
  · obtain ⟨e, he, hk, -, hp⟩ := hp
    exact listed he hp hk
  · refine (ha.open_channel hg hd).trans ⟨fun ⟨hc, hfree⟩ => ?_, fun ⟨A, e, hA, he, hm⟩ => ?_⟩
    · obtain ⟨A, hA⟩ := holds.mp hc
      obtain ⟨e, he, -, hk⟩ := hg.coherent.listed hA
      refine ⟨A, e, hA, he, Bool.eq_false_iff.mpr fun hm => ?_⟩
      obtain ⟨p, hp⟩ := Option.isSome_iff_exists.mp ((hg.linked.matched_iff he).mp hm)
      exact hfree p (Graph.partner?_eq_some.mpr ⟨e, he, hp⟩) (listed he hp hk).2
    · refine ⟨holds.mpr ⟨A, hA⟩, fun p hp => ?_⟩
      obtain ⟨e', he', hp'⟩ := Graph.partner?_eq_some.mp hp
      rw [he] at he'
      cases he'
      have := (hg.linked.matched_iff he).mpr (by rw [hp']; rfl)
      rw [hm] at this
      cases this

/-- The channel from `a` to `b` gets a link that joins the two. -/
theorem Graph.pipeline_channel_links :
    ∃ t, MergeTree.build Graph.pipeline .none 4 = .ok t ∧
      ∃ placed ∈ t.placedLinks .channel,
        MergeTree.Joins Graph.pipeline placed.1 placed.2 ⟨0⟩ ⟨3⟩ := by
  have hsize : Graph.pipeline.modules.size = 3 := by cbv
  obtain ⟨t, -, -, hbuild⟩ := Graph.pipeline_reachable.sound.build_ok (by omega)
    Graph.pipeline_chainsTyped .none 4
  obtain ⟨⟨pairs, -, hmem, hjoined⟩, -⟩ := Graph.pipeline_reachable.channel_links hbuild
  have hpair : Graph.pipeline.ChannelPair ⟨0⟩ ⟨3⟩ :=
    ⟨{ Graph.plainEnd .send "x" "a" with matched := true, partner := some ⟨3⟩ }, by cbv, rfl, rfl,
      rfl⟩
  obtain ⟨placed, hplaced, hjoins⟩ := MergeTree.exists_of_forall₂ hjoined ((hmem _ _).mpr hpair)
  exact ⟨t, hbuild, placed, hplaced, hjoins⟩

end HardwareLinker
