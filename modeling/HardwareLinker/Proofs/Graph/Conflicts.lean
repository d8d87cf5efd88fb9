import Mathlib.Data.List.Nodup
import HardwareLinker.Proofs.Graph.Partners

/-!
Conflicts of types in a merge. The test before a merge compares every incoming end with every old
one of its family; what either graph holds agrees already, so a merge that passes the test meets no
conflict while it matches, in whatever order and grouping matching compares the ends.
-/

namespace HardwareLinker.Graph

variable {α : Type}

/-- A name that both graphs give to a module. -/
def SharedName (g incoming : Graph α) (name : String) : Prop :=
  name ∈ g.moduleNames ∧ name ∈ incoming.moduleNames

/-- A listed end of a graph and one of an incoming graph, of one family and one name but of
different types. -/
structure Clash (g incoming : Graph α) (old new : Connection α) : Prop where
  name : old.name = new.name
  type : old.type ≠ new.type
  listed : ∃ chain A B o c, g.Lists chain A o ∧ g.connection? o = some old ∧
    incoming.Lists chain B c ∧ incoming.connection? c = some new

/-! ### The test before a merge -/

theorem sharedModule?_eq_some {g incoming : Graph α} {name : String} :
    g.sharedModule? incoming = some name ↔
      g.SharedName incoming name ∧ ∀ other, g.SharedName incoming other → name ≤ other := by
  have ascending : incoming.moduleNames.Pairwise (· < ·) := by
    rw [moduleNames, NameMap.keys, List.pairwise_map]
    exact incoming.modules.ascending
  unfold sharedModule?
  rw [List.find?_eq_some_iff_append]
  constructor
  · rintro ⟨hname, before, after, hsplit, hbefore⟩
    have hmem : name ∈ incoming.moduleNames := by simp [hsplit]
    refine ⟨⟨NameMap.contains_iff.mp hname, hmem⟩, fun other hother => ?_⟩
    obtain ⟨hold, hnew⟩ := hother
    rw [hsplit] at hnew ascending
    rcases List.mem_append.mp hnew with hb | ha
    · have := hbefore other hb
      rw [NameMap.contains_iff.mpr hold] at this
      cases this
    · rcases List.mem_cons.mp ha with rfl | ha
      · exact String.le_refl _
      · have hlt := (List.pairwise_cons.mp (List.pairwise_append.mp ascending).2.1).1 other ha
        exact String.not_lt.mp fun hgt => String.lt_irrefl _ (String.lt_trans hgt hlt)
  · rintro ⟨⟨hold, hnew⟩, least⟩
    obtain ⟨before, after, hsplit⟩ := List.append_of_mem hnew
    refine ⟨NameMap.contains_iff.mpr hold, before, after, hsplit, fun other hb => ?_⟩
    rw [hsplit] at ascending
    have hlt : other < name :=
      (List.pairwise_append.mp ascending).2.2 other hb name List.mem_cons_self
    have hshared : ¬ g.modules.contains other = true := fun hc =>
      String.not_lt.mpr (least other ⟨NameMap.contains_iff.mp hc, by simp [hsplit, hb]⟩) hlt
    simpa using hshared

theorem sharedModule?_eq_none {g incoming : Graph α} :
    g.sharedModule? incoming = none ↔ ¬ ∃ name, g.SharedName incoming name := by
  unfold sharedModule? SharedName
  simp only [List.find?_eq_none, NameMap.contains_iff, not_exists, not_and]
  exact ⟨fun h name hold hnew => h name hnew hold, fun h name hnew hold => h name hold hnew⟩

theorem mem_flatMap_ends {g : Graph α} {c : ConnectionId} :
    c ∈ g.modules.values.flatMap Module.ends ↔ ∃ chain A, g.Lists chain A c := by
  simp only [List.mem_flatMap, NameMap.mem_values, Module.mem_ends, Lists]
  constructor
  · rintro ⟨m, ⟨A, hm⟩, chain, hc⟩
    exact ⟨chain, A, m, hm, hc⟩
  · rintro ⟨chain, A, m, hm, hc⟩
    exact ⟨m, ⟨A, hm⟩, chain, hc⟩

theorem conflict?_eq_none_iff {a b : Connection α} :
    a.conflict? b = none ↔ (a.name = b.name → a.type = b.type) := by
  unfold Connection.conflict?
  split
  · next h =>
    refine iff_of_false ?_ fun hn => h.2 (hn h.1)
    dsimp only
    split <;> exact Option.some_ne_none _
  · next h => exact iff_of_true rfl fun hn => not_not.mp fun ht => h ⟨hn, ht⟩

/-- The test finds a conflict just where two ends clash. -/
theorem mergeConflict?_eq_some {g incoming : Graph α} (hg : g.Coherent) (hi : incoming.Coherent)
    {t : Connection.TypeConflict} (h : g.mergeConflict? incoming = some t) :
    ∃ old new, g.Clash incoming old new ∧ old.conflict? new = some t := by
  obtain ⟨c, hc, h⟩ := List.exists_of_findSome?_eq_some h
  obtain ⟨o, ho, h⟩ := List.exists_of_findSome?_eq_some h
  obtain ⟨chain, B, hc⟩ := mem_flatMap_ends.mp hc
  obtain ⟨chain', A, ho⟩ := mem_flatMap_ends.mp ho
  obtain ⟨new, hnew, -, hkn⟩ := hi.listed hc
  obtain ⟨old, hold, -, hko⟩ := hg.listed ho
  simp only [hnew, hold, Option.bind_eq_bind, Option.bind_some, hko, hkn] at h
  split at h
  · next hk =>
    rw [beq_iff_eq] at hk
    subst hk
    have hclash : ¬ (old.name = new.name → old.type = new.type) := fun hn => by
      rw [conflict?_eq_none_iff.mpr hn] at h
      cases h
    rw [Classical.not_imp] at hclash
    exact ⟨old, new, ⟨hclash.1, hclash.2, _, A, B, o, c, ho, hold, hc, hnew⟩, h⟩
  · cases h

theorem mergeConflict?_eq_none {g incoming : Graph α} (hg : g.Coherent) (hi : incoming.Coherent) :
    g.mergeConflict? incoming = none ↔ ¬ ∃ old new, g.Clash incoming old new := by
  constructor
  · rintro h ⟨old, new, hname, htype, chain, A, B, o, c, ho, hold, hc, hnew⟩
    have h := List.findSome?_eq_none_iff.mp h c (mem_flatMap_ends.mpr ⟨chain, B, hc⟩)
    have h := List.findSome?_eq_none_iff.mp h o (mem_flatMap_ends.mpr ⟨chain, A, ho⟩)
    have hk : old.kind.isChain = new.kind.isChain :=
      (hg.listed_on_owner ho hold).2.1.trans (hi.listed_on_owner hc hnew).2.1.symm
    simp only [hnew, hold, Option.bind_eq_bind, Option.bind_some, hk, beq_self_eq_true,
      if_true] at h
    exact htype (conflict?_eq_none_iff.mp h hname)
  · intro h
    cases ht : g.mergeConflict? incoming with
    | none => rfl
    | some t =>
        obtain ⟨old, new, hclash, -⟩ := mergeConflict?_eq_some hg hi ht
        exact absurd ⟨old, new, hclash⟩ h

/-! ### Types after the modules are put side by side -/

/-- What is kept of a graph whatever match state its ends came with. -/
structure Consistent (g : Graph α) : Prop where
  coherent : g.Coherent
  typed : g.TypesAgree fun _ _ => True

theorem Sound.consistent {g : Graph α} (h : g.Sound) : g.Consistent := ⟨h.coherent, h.typed⟩

/-- A listed end of a graph that modules were attached to is an old one or came with its module. -/
theorem lists_attachAll {β : Type} {name : β → String} {new : Graph α → β → Module}
    {ends : β → List (Connection α)} {g : Graph α} {l : List β} (hl : (l.map name).Nodup)
    (hnew : ∀ x ∈ l, name x ∉ g.modules.keys) (hown : ∀ x ∈ l, ∀ e ∈ ends x, e.owner = name x)
    (hg : g.Coherent) {chain : Bool} {A : String} {c : ConnectionId} {e : Connection α}
    (hc : (attachAll name new ends g l).Lists chain A c)
    (he : (attachAll name new ends g l).connection? c = some e) :
    g.Lists chain A c ∧ g.connection? c = some e ∨
      ∃ x ∈ l, A = name x ∧ e ∈ ends x ∧ e.kind.isChain = chain := by
  refine (attachAll_keeps (P := fun g' => g'.Coherent ∧ ∀ A c e, g'.Lists chain A c →
    g'.connection? c = some e → g.Lists chain A c ∧ g.connection? c = some e ∨
      ∃ x ∈ l, A = name x ∧ e ∈ ends x ∧ e.kind.isChain = chain) hl hnew ?_
    ⟨hg, fun _ _ _ hc he => .inl ⟨hc, he⟩⟩).2 A c e hc he
  intro x hx g' hnewx ⟨hg', earlier⟩
  refine ⟨hg'.attach hnewx (hown x hx), fun A c e hc he => ?_⟩
  cases (lists_attach hnewx).mp hc with
  | inl hold =>
      obtain ⟨e', he', -⟩ := hg'.listed hold
      cases (extends_attach.kept he').symm.trans he
      exact earlier A c e hold he'
  | inr came =>
      obtain ⟨hA, hfamily⟩ := came
      obtain ⟨e', hfirst, he', hk⟩ := mem_listFamily.mp hfamily
      rw [connection?_attach, if_neg (Nat.not_lt.mpr hfirst), he'] at he
      cases he
      exact .inr ⟨x, hx, hA, List.mem_of_getElem? he', hk⟩

/-- The ends of a merged graph, before they are matched, are those of the two graphs. -/
theorem lists_juxtapose {g incoming : Graph α} (hg : g.Coherent) (hi : incoming.Coherent)
    (apart : ¬ ∃ name, g.SharedName incoming name) {chain : Bool} {A : String} {c : ConnectionId}
    {e : Connection α} (hc : (g.juxtapose incoming).Lists chain A c)
    (he : (g.juxtapose incoming).connection? c = some e) :
    g.Lists chain A c ∧ g.connection? c = some e ∨
      ∃ d x, incoming.Lists chain A d ∧ incoming.connection? d = some x ∧ x.unmatch = e := by
  rw [juxtapose_eq] at hc he
  have hnew : ∀ x ∈ incoming.modules.entries, x.1 ∉ g.modules.keys := fun x hx hm =>
    apart ⟨x.1, hm, NameMap.mem_keys_of_mem hx⟩
  refine (lists_attachAll incoming.modules.keys_nodup hnew
    (fun x hx y hy => (mem_freedEnds hi hx hy).1) hg hc he).imp_right ?_
  rintro ⟨⟨_, m⟩, hm, rfl, hfreed, hk⟩
  obtain ⟨d, hd, hmap⟩ := List.mem_filterMap.mp hfreed
  obtain ⟨x, hx, rfl⟩ := Option.map_eq_some_iff.mp hmap
  obtain ⟨chain', hd⟩ := Module.mem_ends.mp hd
  have hlists : incoming.Lists chain' A d := ⟨m, hm, hd⟩
  have hk' := (hi.listed_on_owner hlists hx).2.1
  exact ⟨d, x, (hk'.symm.trans hk) ▸ hlists, hx, rfl⟩

theorem Consistent.typesAgree_juxtapose {g incoming : Graph α} (hg : g.Consistent)
    (hi : incoming.Consistent) (apart : ¬ ∃ name, g.SharedName incoming name)
    (typed : ¬ ∃ old new, g.Clash incoming old new) :
    (g.juxtapose incoming).TypesAgree fun _ _ => True := by
  have across {chain : Bool} {A B : String} {o c : ConnectionId} {old new : Connection α}
      (ho : g.Lists chain A o) (hold : g.connection? o = some old) (hc : incoming.Lists chain B c)
      (hnew : incoming.connection? c = some new) (hn : old.name = new.name) :
      old.type = new.type := by
    by_contra ht
    exact typed ⟨old, new, hn, ht, chain, A, B, o, c, ho, hold, hc, hnew⟩
  intro chain A B c d e f _ hne hcA hdB he hf hn
  rcases lists_juxtapose hg.coherent hi.coherent apart hcA he with
      ⟨hA, he⟩ | ⟨c', x, hA, hx, rfl⟩ <;>
    rcases lists_juxtapose hg.coherent hi.coherent apart hdB hf with
      ⟨hB, hf⟩ | ⟨d', y, hB, hy, rfl⟩
  · exact hg.typed trivial hne hA hB he hf hn
  · have h : e.type = y.type := across hA he hB hy hn
    exact h
  · have h : f.type = x.type := across hB hf hA hx hn.symm
    exact h.symm
  · have h : x.type = y.type := hi.typed trivial hne hA hB hx hy hn
    exact h

theorem typesAgree_juxtapose {g incoming : Graph α} (hg : g.Sound) (hi : incoming.Sound)
    (apart : ¬ ∃ name, g.SharedName incoming name)
    (typed : ¬ ∃ old new, g.Clash incoming old new) :
    (g.juxtapose incoming).TypesAgree fun _ _ => True :=
  hg.consistent.typesAgree_juxtapose hi.consistent apart typed

/-- Channels that are compared belong to different modules. -/
theorem of_mem_channelCandidates {g : Graph α} {fresh : String → Bool} {a b : ConnectionId}
    (h : (a, b) ∈ g.channelCandidates fresh) :
    ∃ A B, A ≠ B ∧ g.Lists false A a ∧ g.Lists false B b := by
  obtain ⟨A, B, mA, mB, hAB, -, ha, hb⟩ := mem_channelCandidates.mp h
  obtain ⟨hA, hB⟩ := mem_of_mem_orderedPairs hAB
  have hlt : A < B := rel_of_mem_orderedPairs g.modules.ascending hAB
  exact ⟨A, B, fun e => String.lt_irrefl _ (e ▸ hlt), ⟨mA, hA, ha⟩, ⟨mB, hB, hb⟩⟩

/-- Ends that are compared within a chain belong to different modules. -/
theorem of_mem_chainPairs {g : Graph α} {chain : String} {a b : ConnectionId}
    (h : (a, b) ∈ (orderedPairs (g.chainEnds chain)).flatMap crossPairs) :
    ∃ A B, A ≠ B ∧ g.Lists true A a ∧ g.Lists true B b := by
  obtain ⟨⟨l, r⟩, hlr, hab⟩ := List.mem_flatMap.mp h
  obtain ⟨ha, hb⟩ := mem_crossPairs.mp hab
  rw [chainEnds_eq] at hlr
  have hlr := orderedPairs_subset List.filter_sublist hlr
  rw [NameMap.values, List.map_map, orderedPairs_map] at hlr
  obtain ⟨⟨x, y⟩, hxy, he⟩ := List.mem_map.mp hlr
  cases he
  obtain ⟨hx, hy⟩ := mem_of_mem_orderedPairs hxy
  have hlt : x.1 < y.1 := rel_of_mem_orderedPairs g.modules.ascending hxy
  exact ⟨x.1, y.1, fun e => String.lt_irrefl _ (e ▸ hlt), ⟨x.2, hx, (mem_endsOn.mp ha).1⟩,
    ⟨y.2, hy, (mem_endsOn.mp hb).1⟩⟩

theorem TypesAgree.conflictAt? {g : Graph α} (h : g.TypesAgree fun _ _ => True) {chain : Bool}
    {A B : String} (hne : A ≠ B) {a b : ConnectionId} (ha : g.Lists chain A a)
    (hb : g.Lists chain B b) : g.conflictAt? (a, b) = none := by
  unfold Graph.conflictAt?
  cases he : g.connection? a with
  | none => rfl
  | some e =>
      cases hf : g.connection? b with
      | none => rfl
      | some f => exact conflict?_eq_none_iff.mpr (h trivial hne ha hb he hf)

/-- Where types agree, matching meets no conflict, whichever modules are new. -/
theorem TypesAgree.no_conflict {g : Graph α} (h : g.TypesAgree fun _ _ => True)
    (fresh : String → Bool) :
    (∀ p ∈ g.channelCandidates fresh, g.conflictAt? p = none) ∧
      ∀ chain, ∀ p ∈ (orderedPairs (g.chainEnds chain)).flatMap crossPairs,
        g.conflictAt? p = none := by
  refine ⟨fun (a, b) hp => ?_, fun chain (a, b) hp => ?_⟩
  · obtain ⟨A, B, hne, ha, hb⟩ := of_mem_channelCandidates hp
    exact h.conflictAt? hne ha hb
  · obtain ⟨A, B, hne, ha, hb⟩ := of_mem_chainPairs hp
    exact h.conflictAt? hne ha hb

theorem TypesAgree.conflict?_eq_none {g : Graph α} (h : g.TypesAgree fun _ _ => True)
    (fresh : String → Bool) : g.conflict? fresh = none := by
  obtain ⟨channels, chains⟩ := h.no_conflict fresh
  unfold Graph.conflict?
  rw [List.findSome?_eq_none_iff.mpr channels, Option.orElse_eq_orElse, Option.orElse_eq_or,
    Option.none_or]
  exact List.findSome?_eq_none_iff.mpr fun chain _ => List.findSome?_eq_none_iff.mpr (chains chain)

end HardwareLinker.Graph
