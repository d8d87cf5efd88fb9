import HardwareLinker.Proofs.Graph.Additive
import HardwareLinker.Proofs.Graph.RecordOrder

/-!
Who goes first. Channel pairs have a rank: the names of their two modules, then the positions in the
channel lists. A pair that could be linked is left open only for the sake of a pair of higher rank
that has one of its ends, so the rank alone decides which of many ends of one name are linked.
-/

namespace HardwareLinker.Graph

variable {α : Type}

/-! ### Ranks -/

/-- Two modules by name, and a position in the channel list of each. -/
structure PairPlace where
  left : String
  right : String
  leftIndex : Nat
  rightIndex : Nat

/-- Module names count first, positions next; the left one of either before the right one. -/
def PairPlace.Before (p q : PairPlace) : Prop :=
  p.left < q.left ∨ p.left = q.left ∧ (p.right < q.right ∨ p.right = q.right ∧
    (p.leftIndex < q.leftIndex ∨ p.leftIndex = q.leftIndex ∧ p.rightIndex < q.rightIndex))

/-- The channel that the named module lists at the position. -/
def ChannelAt (g : Graph α) (name : String) (index : Nat) (c : ConnectionId) : Prop :=
  ∃ m, g.module? name = some m ∧ m.channels[index]? = some c

/-- The channels that stand at a place, the one of the module that is first in name order first. -/
structure PairAt (g : Graph α) (q : PairPlace) (a b : ConnectionId) : Prop where
  ascending : q.left < q.right
  left : g.ChannelAt q.left q.leftIndex a
  right : g.ChannelAt q.right q.rightIndex b

/-- The end has a partner in a pair that stands before the place. -/
def TakenBefore (g : Graph α) (q : PairPlace) (c : ConnectionId) : Prop :=
  ∃ p r, g.partner? c = some p ∧ (g.PairAt r c p ∨ g.PairAt r p c) ∧ r.Before q

theorem ChannelAt.lists {g : Graph α} {name : String} {index : Nat} {c : ConnectionId}
    (h : g.ChannelAt name index c) : g.Lists false name c := by
  obtain ⟨m, hm, hc⟩ := h
  exact ⟨m, NameMap.find?_eq_some.mp hm, List.mem_of_getElem? hc⟩

/-- A listed channel stands on one interface only. -/
theorem Coherent.channelAt {g : Graph α} (hg : g.Coherent) {A B : String} {m : Module}
    {index : Nat} {c : ConnectionId} (hm : (A, m) ∈ g.modules.entries) (hc : c ∈ m.channels)
    (h : g.ChannelAt B index c) : B = A ∧ m.channels[index]? = some c := by
  have listed : g.Lists false A c := ⟨m, hm, hc⟩
  obtain rfl := (hg.owner_unique h.lists listed).1
  obtain ⟨m', hm', hc'⟩ := h
  obtain rfl := g.modules.value_unique (NameMap.find?_eq_some.mp hm') hm
  exact ⟨rfl, hc'⟩

section

variable {g : Graph α} {x y : String × Module}

/-- The place of a pair names the modules that list its channels, and their positions there. -/
theorem Coherent.pairAt_crossPairs (hg : g.Coherent)
    (hx : x ∈ g.modules.entries) (hy : y ∈ g.modules.entries) {c : ConnectionId × ConnectionId}
    (hc : c ∈ crossPairs (x.2.channels, y.2.channels)) {p : PairPlace} (hp : g.PairAt p c.1 c.2) :
    (p.left = x.1 ∧ x.2.channels[p.leftIndex]? = some c.1) ∧
      p.right = y.1 ∧ y.2.channels[p.rightIndex]? = some c.2 := by
  obtain ⟨ha, hb⟩ := mem_crossPairs.mp hc
  exact ⟨hg.channelAt hx ha hp.left, hg.channelAt hy hb hp.right⟩

/-- Pairs of the channels of two modules come in the order of their positions. -/
theorem Coherent.pairwise_channels (hg : g.Coherent)
    (hx : x ∈ g.modules.entries) (hy : y ∈ g.modules.entries) :
    (crossPairs (x.2.channels, y.2.channels)).Pairwise fun c d => ∀ p q, g.PairAt p c.1 c.2 →
      g.PairAt q d.1 d.2 → p.Before q := by
  have positions := pairwise_crossPairs (pairwise_positions (hg.nodup false hx))
    (pairwise_positions (hg.nodup false hy))
  refine positions.imp_of_mem fun {c d} hc hd order p q hp hq => ?_
  obtain ⟨⟨pl, pi⟩, pr, pj⟩ := hg.pairAt_crossPairs hx hy hc hp
  obtain ⟨⟨ql, qi⟩, qr, qj⟩ := hg.pairAt_crossPairs hx hy hd hq
  refine .inr ⟨pl.trans ql.symm, .inr ⟨pr.trans qr.symm, ?_⟩⟩
  rcases order with first | ⟨same, second⟩
  · exact .inl (first _ _ pi qi)
  · have bound := (List.getElem?_eq_some_iff.mp pi).1
    have index := (List.getElem?_inj bound (hg.nodup false hx)).mp (pi.trans (same ▸ qi.symm))
    exact .inr ⟨index, second _ _ pj qj⟩

end

/-- Channel pairs are looked at in the order of their ranks. -/
theorem Coherent.pairwise_channelCandidates {g : Graph α} (hg : g.Coherent)
    (fresh : String → Bool) :
    (g.channelCandidates fresh).Pairwise fun c d => ∀ p q, g.PairAt p c.1 c.2 →
      g.PairAt q d.1 d.2 → p.Before q := by
  have cross {x : (String × Module) × (String × Module)} {c : ConnectionId × ConnectionId}
      (hc : c ∈ if fresh x.1.1 || fresh x.2.1 then crossPairs (x.1.2.channels, x.2.2.channels)
        else []) : c ∈ crossPairs (x.1.2.channels, x.2.2.channels) := by
    split at hc
    · exact hc
    · cases hc
  refine List.pairwise_flatMap.mpr ⟨fun x hx => ?_,
    (pairwise_orderedPairs g.modules.ascending).imp_of_mem
      fun {x y} hx hy order c hc d hd p q hp hq => ?_⟩
  · obtain ⟨hA, hB⟩ := mem_of_mem_orderedPairs hx
    dsimp only
    split
    · exact hg.pairwise_channels hA hB
    · exact .nil
  · obtain ⟨hA, hB⟩ := mem_of_mem_orderedPairs hx
    obtain ⟨hC, hD⟩ := mem_of_mem_orderedPairs hy
    obtain ⟨⟨pl, -⟩, pr, -⟩ := hg.pairAt_crossPairs hA hB (cross hc) hp
    obtain ⟨⟨ql, -⟩, qr, -⟩ := hg.pairAt_crossPairs hC hD (cross hd) hq
    rw [PairPlace.Before, pl, ql, pr, qr]
    rcases order with first | ⟨same, second⟩
    · exact .inl first
    · exact .inr ⟨congrArg Prod.fst same, .inl second⟩

theorem mem_candidates_of_pairAt {g : Graph α} {q : PairPlace} {a b : ConnectionId}
    (h : g.PairAt q a b) : (a, b) ∈ g.channelCandidates fun _ => true := by
  obtain ⟨mA, hA, ha⟩ := h.left
  obtain ⟨mB, hB, hb⟩ := h.right
  have hA := NameMap.find?_eq_some.mp hA
  have hB := NameMap.find?_eq_some.mp hB
  have ne : (q.left, mA) ≠ (q.right, mB) := fun e =>
    String.lt_irrefl _ ((Prod.mk.inj e).1 ▸ h.ascending)
  refine mem_channelCandidates.mpr ⟨q.left, q.right, mA, mB, ?_, rfl, List.mem_of_getElem? ha,
    List.mem_of_getElem? hb⟩
  refine (orderedPairs_total hA hB ne).resolve_right fun back => ?_
  exact String.lt_asymm h.ascending (rel_of_mem_orderedPairs g.modules.ascending back)

theorem exists_pairAt {g : Graph α} {fresh : String → Bool} {a b : ConnectionId}
    (h : (a, b) ∈ g.channelCandidates fresh) : ∃ q, g.PairAt q a b := by
  obtain ⟨A, B, mA, mB, hp, -, ha, hb⟩ := mem_channelCandidates.mp h
  obtain ⟨hA, hB⟩ := mem_of_mem_orderedPairs hp
  obtain ⟨i, hi⟩ := List.mem_iff_getElem?.mp ha
  obtain ⟨j, hj⟩ := List.mem_iff_getElem?.mp hb
  exact ⟨⟨A, B, i, j⟩, rel_of_mem_orderedPairs g.modules.ascending hp,
    ⟨mA, NameMap.find?_eq_some.mpr hA, hi⟩, ⟨mB, NameMap.find?_eq_some.mpr hB, hj⟩⟩

/-- What is looked at before a pair stands before it. -/
theorem Coherent.exists_before {g : Graph α} (hg : g.Coherent) {fresh : String → Bool}
    {before after : List (ConnectionId × ConnectionId)} {a b c p : ConnectionId}
    (split : g.channelCandidates fresh = before ++ (a, b) :: after) {q : PairPlace}
    (place : g.PairAt q a b) (met : (c, p) ∈ before) : ∃ r, g.PairAt r c p ∧ r.Before q := by
  have order := hg.pairwise_channelCandidates fresh
  rw [split, List.pairwise_append] at order
  obtain ⟨r, hr⟩ := exists_pairAt (split ▸ List.mem_append_left _ met)
  exact ⟨r, hr, order.2.2 _ met _ List.mem_cons_self r q hr place⟩

theorem pairAt_linkFresh {g : Graph α} {fresh : String → Bool} {q : PairPlace}
    {a b : ConnectionId} : (g.linkFresh fresh).PairAt q a b ↔ g.PairAt q a b :=
  ⟨fun h => ⟨h.ascending, h.left, h.right⟩, fun h => ⟨h.ascending, h.left, h.right⟩⟩

/-! ### Greedy passes -/

namespace Table

theorem linkGreedily_append (t : Table α) (before after : List (ConnectionId × ConnectionId)) :
    t.linkGreedily (before ++ after) = (t.linkGreedily before).linkGreedily after :=
  List.foldl_append

/-- A pair whose turn comes while both of its ends are free is linked for good. -/
theorem linkGreedily_cons_of_linkable {t : Table α} {a b : ConnectionId}
    {after : List (ConnectionId × ConnectionId)} (h : t.linkable a b = true) :
    ∃ x y, (t.linkGreedily ((a, b) :: after))[a.slot]? = some x ∧ x.partner = some b ∧
      (t.linkGreedily ((a, b) :: after))[b.slot]? = some y ∧ y.partner = some a := by
  obtain ⟨x, y, hx, hy, -⟩ := linkable_iff.mp h
  have apart := slot_ne_of_linkable h
  have turn : t.linkGreedily ((a, b) :: after) = (t.link a b).linkGreedily after := by
    rw [linkGreedily_eq, List.foldl_cons, pairUp, if_pos h, ← linkGreedily_eq]
  have ga : (t.link a b)[a.slot]? = some (x.linkTo b) := by simp [getElem?_link, apart.symm, hx]
  have gb : (t.link a b)[b.slot]? = some (y.linkTo a) := by simp [getElem?_link, apart, hy]
  rw [turn]
  exact ⟨_, _, getElem?_linkGreedily_of_matched ga rfl, rfl,
    getElem?_linkGreedily_of_matched gb rfl, rfl⟩

/-- Among free ends, an end that is matched before the turn of a pair has a partner from a pair that
came before, and keeps it. -/
theorem partner_linkGreedily {t : Table α}
    (free : ∀ (i : Nat) (e : Connection α), t[i]? = some e → e.matched = false ∧ e.partner = none)
    {before : List (ConnectionId × ConnectionId)} (after : List (ConnectionId × ConnectionId))
    {c : ConnectionId} {e : Connection α} (he : (t.linkGreedily before)[c.slot]? = some e)
    (hm : e.matched = true) : (t.linkGreedily (before ++ after))[c.slot]? = some e ∧
      ∃ p, e.partner = some p ∧ ((c, p) ∈ before ∨ (p, c) ∈ before) := by
  have linked : (t.linkGreedily before).Linked fun c p => (c, p) ∈ before ∨ (p, c) ∈ before :=
    (linked_of_free free).linkGreedily fun p hp => ⟨.inl hp, .inr hp⟩
  obtain ⟨p, hp⟩ := Option.isSome_iff_exists.mp ((linked.matched_iff he).mp hm)
  rw [linkGreedily_append]
  exact ⟨getElem?_linkGreedily_of_matched he hm, p, hp, (linked.partners he hp).1⟩

/-- A pair of complementary ends is linked, or one of its ends is linked by a pair that came
before. -/
theorem linkGreedily_priority {t : Table α}
    (free : ∀ (i : Nat) (e : Connection α), t[i]? = some e → e.matched = false ∧ e.partner = none)
    (before after : List (ConnectionId × ConnectionId)) {a b : ConnectionId} {e f : Connection α}
    (he : t[a.slot]? = some e) (hf : t[b.slot]? = some f) (name : e.name = f.name)
    (kind : e.kind.complements f.kind = true) :
    (∃ x y, (t.linkGreedily (before ++ (a, b) :: after))[a.slot]? = some x ∧ x.partner = some b ∧
      (t.linkGreedily (before ++ (a, b) :: after))[b.slot]? = some y ∧ y.partner = some a) ∨
    ∃ c x p, (c = a ∨ c = b) ∧ (t.linkGreedily (before ++ (a, b) :: after))[c.slot]? = some x ∧
      x.partner = some p ∧ ((c, p) ∈ before ∨ (p, c) ∈ before) := by
  by_cases turn : (t.linkGreedily before).linkable a b = true
  · rw [linkGreedily_append]
    exact .inl (linkGreedily_cons_of_linkable turn)
  · obtain ⟨x, hx, hxe⟩ := get_of_freed_eq (freed_linkGreedily t before).symm he
    obtain ⟨y, hy, hyf⟩ := get_of_freed_eq (freed_linkGreedily t before).symm hf
    have same : x.name = y.name := by
      rw [Connection.name_eq_of_unmatch hxe, Connection.name_eq_of_unmatch hyf, name]
    have fits : x.kind.complements y.kind = true := by
      rw [Connection.kind_eq_of_unmatch hxe, Connection.kind_eq_of_unmatch hyf, kind]
    right
    cases mx : x.matched with
    | true =>
        obtain ⟨kept, p, hp, met⟩ := partner_linkGreedily free ((a, b) :: after) hx mx
        exact ⟨a, x, p, .inl rfl, kept, hp, met⟩
    | false =>
        cases my : y.matched with
        | true =>
            obtain ⟨kept, p, hp, met⟩ := partner_linkGreedily free ((a, b) :: after) hy my
            exact ⟨b, y, p, .inr rfl, kept, hp, met⟩
        | false => exact absurd (linkable_iff.mpr ⟨x, y, hx, hy, same, mx, my, fits⟩) turn

end Table

/-! ### Assembled graphs -/

theorem Coherent.partner?_linkFresh_channel {g : Graph α} (hg : g.Coherent) {fresh : String → Bool}
    {A : String} {c p : ConnectionId} {x : Connection α} (hc : g.Lists false A c)
    (hx : (Table.linkGreedily g.connections (g.channelCandidates fresh))[c.slot]? = some x)
    (hp : x.partner = some p) : (g.linkFresh fresh).partner? c = some p :=
  partner?_eq_some.mpr ⟨x, (connection?_linkFresh_channel hg fresh hc).trans hx, hp⟩

/-- Linking free ends leaves a pair open only where a pair that stands before it has one of its
ends. -/
theorem Coherent.priority_linkFresh {g : Graph α} (hg : g.Coherent) (free : g.Free) {q : PairPlace}
    {a b : ConnectionId} {e f : Connection α} (place : g.PairAt q a b)
    (he : g.connection? a = some e) (hf : g.connection? b = some f) (name : e.name = f.name)
    (kind : e.kind.complements f.kind = true) :
    ((g.linkFresh fun _ => true).partner? a = some b ∧
      (g.linkFresh fun _ => true).partner? b = some a) ∨
    (g.linkFresh fun _ => true).TakenBefore q a ∨ (g.linkFresh fun _ => true).TakenBefore q b := by
  obtain ⟨before, after, split⟩ := List.append_of_mem (mem_candidates_of_pairAt place)
  rcases Table.linkGreedily_priority
    (fun i e => free (c := ⟨i⟩) (e := e)) before after he hf name kind with
    ⟨x, y, hx, hxb, hy, hya⟩ | ⟨c, x, p, hc, hx, hp, met⟩
  · rw [← split] at hx hy
    exact .inl ⟨hg.partner?_linkFresh_channel place.left.lists hx hxb,
      hg.partner?_linkFresh_channel place.right.lists hy hya⟩
  · rw [← split] at hx
    have rank : ∃ r, ((g.linkFresh fun _ => true).PairAt r c p ∨
        (g.linkFresh fun _ => true).PairAt r p c) ∧ r.Before q := by
      rcases met with met | met
      · obtain ⟨r, hr, less⟩ := hg.exists_before split place met
        exact ⟨r, .inl (pairAt_linkFresh.mpr hr), less⟩
      · obtain ⟨r, hr, less⟩ := hg.exists_before split place met
        exact ⟨r, .inr (pairAt_linkFresh.mpr hr), less⟩
    obtain ⟨r, hr, less⟩ := rank
    have taken {A : String} (listed : g.Lists false A c) :
        (g.linkFresh fun _ => true).TakenBefore q c :=
      ⟨p, r, hg.partner?_linkFresh_channel listed hx hp, hr, less⟩
    rcases hc with rfl | rfl
    · exact .inr (.inl (taken place.left.lists))
    · exact .inr (.inr (taken place.right.lists))

/-- **The rank of a pair decides.** In a graph that is assembled from free ends, two channels of
different modules that bear one name and complement each other are partners, or one of them has a
partner with which it forms a pair of higher rank. -/
theorem ofConnections_priority {ends : List (Connection α)} {g : Graph α}
    (free : ∀ e ∈ ends, e.matched = false ∧ e.partner = none)
    (assembled : ofConnections ends = .ok g)
    {q : PairPlace} {a b : ConnectionId} {e f : Connection α} (place : g.PairAt q a b)
    (he : g.connection? a = some e) (hf : g.connection? b = some f) (name : e.name = f.name)
    (kind : e.kind.complements f.kind = true) :
    (g.partner? a = some b ∧ g.partner? b = some a) ∨ g.TakenBefore q a ∨ g.TakenBefore q b := by
  obtain ⟨-, rfl⟩ := matchFresh_eq_ok assembled
  obtain ⟨e', he', hee⟩ := Table.get_of_freed_eq (freed_linkFresh (gather ends) _) he
  obtain ⟨f', hf', hff⟩ := Table.get_of_freed_eq (freed_linkFresh (gather ends) _) hf
  refine (coherent_gather ends).priority_linkFresh (free_gather free) (pairAt_linkFresh.mp place)
    he' hf' ?_ ?_
  · rw [Connection.name_eq_of_unmatch hee, Connection.name_eq_of_unmatch hff, name]
  · rw [Connection.kind_eq_of_unmatch hee, Connection.kind_eq_of_unmatch hff, kind]

/-- One sender and two receivers, the later of which is named first. -/
def receiverEnds : List (Connection Rat) :=
  [plainEnd .send "x" "m", plainEnd .recv "x" "z", plainEnd .recv "x" "b"]

/-- The receiver of `b` comes first, so that the one of `z` stays open. -/
theorem receiverEnds_priority :
    ofConnections receiverEnds = .ok (assembly receiverEnds) ∧
    (assembly receiverEnds).PairAt ⟨"m", "z", 0, 0⟩ ⟨1⟩ ⟨2⟩ ∧
    (assembly receiverEnds).partner? ⟨2⟩ = none ∧
    (assembly receiverEnds).TakenBefore ⟨"m", "z", 0, 0⟩ ⟨1⟩ := by
  have assembled : ofConnections receiverEnds = .ok (assembly receiverEnds) :=
    matchFresh_ok (by cbv)
  have place : (assembly receiverEnds).PairAt ⟨"m", "z", 0, 0⟩ ⟨1⟩ ⟨2⟩ := by
    have channel {name : String} {c : ConnectionId}
        (h : ((assembly receiverEnds).module? name).bind (·.channels[0]?) = some c) :
        (assembly receiverEnds).ChannelAt name 0 c := Option.bind_eq_some_iff.mp h
    exact ⟨by decide, channel (by cbv), channel (by cbv)⟩
  have lone : (assembly receiverEnds).partner? ⟨2⟩ = none := by cbv
  refine ⟨assembled, place, lone, ?_⟩
  rcases ofConnections_priority (by simp [receiverEnds, plainEnd]) assembled place
    (e := (plainEnd .send "x" "m").linkTo ⟨0⟩) (f := plainEnd .recv "x" "z")
    (by cbv) (by cbv) rfl rfl with
    linked | taken | ⟨p, -, partner, -⟩
  · cases linked.2.symm.trans lone
  · exact taken
  · cases partner.symm.trans lone

end HardwareLinker.Graph
