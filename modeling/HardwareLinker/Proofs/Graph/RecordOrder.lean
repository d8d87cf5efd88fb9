import HardwareLinker.Proofs.Graph.LoadOrder

/-!
The order of records. Ends are grouped by owner and sorted by name, and sorting keeps the order of
equal names; so lists that agree on the order of the ends of each owner, family and name gather to
graphs with the same faces. Matching a renamed graph meets the renamed pairs in the same order: it
reports the same conflict, or links what corresponds.
-/

namespace HardwareLinker

/-! ### Stable sorting -/

section Sorting

variable {β : Type} (key : β → String)

theorem filter_mergeSort (l : List β) (name : String) :
    (l.mergeSort fun a b => key a ≤ key b).filter (key · == name) = l.filter (key · == name) := by
  have sorted : (l.filter (key · == name)).Pairwise fun a b => decide (key a ≤ key b) = true := by
    apply List.pairwise_of_forall_mem_list
    intro a ha b hb
    simp_all
  have sublist : (l.filter (key · == name)).Sublist (l.mergeSort fun a b => key a ≤ key b) :=
    List.sublist_mergeSort (fun _ _ _ => by simpa using String.le_trans)
      (fun a b => by simpa using String.le_total (key a) (key b)) sorted List.filter_sublist
  refine (List.Sublist.eq_of_length ?_ ?_).symm
  · simpa using sublist.filter (key · == name)
  · exact (((List.mergeSort_perm l _).filter _).length_eq).symm

/-- A sorted list is told by its members of each name. -/
theorem eq_of_filter_eq {l l' : List β} (hl : l.Pairwise fun a b => key a ≤ key b)
    (hl' : l'.Pairwise fun a b => key a ≤ key b)
    (h : ∀ name, l.filter (key · == name) = l'.filter (key · == name)) : l = l' := by
  induction l generalizing l' with
  | nil =>
      cases l' with
      | nil => rfl
      | cons b _ => simpa using h (key b)
  | cons a rest ih =>
      cases l' with
      | nil => simpa using h (key a)
      | cons b rest' =>
          obtain ⟨ha, hrest⟩ := List.pairwise_cons.mp hl
          obtain ⟨hb, hrest'⟩ := List.pairwise_cons.mp hl'
          have below {x y : β} {l l' : List β} (hy : ∀ z ∈ l', key y ≤ key z)
              (hx : (x :: l).filter (key · == key x) = (y :: l').filter (key · == key x)) :
              key y ≤ key x := by
            have hm : x ∈ (y :: l').filter (key · == key x) := hx ▸ by simp
            cases List.mem_cons.mp (List.mem_filter.mp hm).1 with
            | inl e => exact e ▸ String.le_refl _
            | inr hm => exact hy x hm
          have same : key a = key b :=
            String.le_antisymm (below ha (h (key b)).symm) (below hb (h (key a)))
          have heads := h (key a)
          simp only [List.filter_cons, same, beq_self_eq_true, if_true, List.cons.injEq] at heads
          obtain ⟨rfl, -⟩ := heads
          rw [ih hrest hrest' fun name => ?_]
          have tails := h name
          simp only [List.filter_cons] at tails
          split at tails
          · exact (List.cons.inj tails).2
          · exact tails

theorem mergeSort_congr {l l' : List β}
    (h : ∀ name, l.filter (key · == name) = l'.filter (key · == name)) :
    (l.mergeSort fun a b => key a ≤ key b) = l'.mergeSort fun a b => key a ≤ key b := by
  have sorted (l : List β) :
      (l.mergeSort fun a b => key a ≤ key b).Pairwise fun a b => key a ≤ key b :=
    (List.pairwise_mergeSort (fun _ _ _ => by simpa using String.le_trans)
      (fun a b => by simpa using String.le_total (key a) (key b)) l).imp of_decide_eq_true
  refine eq_of_filter_eq key (sorted l) (sorted l') fun name => ?_
  rw [filter_mergeSort, filter_mergeSort, h]

end Sorting

namespace Graph

variable {α : Type} {ρ : ConnectionId → ConnectionId}

/-! ### Matching renamed graphs -/

theorem Table.Mirrors.linkGreedily {S : Set ConnectionId} {t t' : Table α}
    (h : Table.Mirrors ρ S t' t) (hρ : Set.InjOn ρ S) {pairs : List (ConnectionId × ConnectionId)}
    (hp : ∀ p ∈ pairs, p.1 ∈ S ∧ p.2 ∈ S) :
    Table.Mirrors ρ S (t'.linkGreedily (pairs.map (Prod.map ρ ρ))) (t.linkGreedily pairs) := by
  induction pairs generalizing t t' with
  | nil => exact h
  | cons p rest ih =>
      obtain ⟨⟨ha, hb⟩, hrest⟩ := List.forall_mem_cons.mp hp
      have step : Table.Mirrors ρ S (t'.pairUp (Prod.map ρ ρ p)) (t.pairUp p) := by
        unfold Table.pairUp
        rw [Prod.map_fst, Prod.map_snd, h.linkable ha hb]
        split
        · exact h.link hρ ha hb
        · exact h
      exact ih step hrest

/-- Threading one chain leaves the others alone, so whole tables stay images of each other. -/
theorem Table.Mirrors.threadChain_univ {t t' : Table α} (h : Table.Mirrors ρ Set.univ t' t)
    (hρ : Function.Injective ρ) (members : List (List ConnectionId)) :
    Table.Mirrors ρ Set.univ (t'.threadChain (members.map (·.map ρ))) (t.threadChain members) := by
  intro c _
  by_cases hc : c ∈ members.flatten
  · refine Table.Mirrors.threadChain hρ.injOn ?_ c hc
    intro d _
    rw [h d (Set.mem_univ d), Option.map_map]
    rfl
  · have hc' : ρ c ∉ (members.map (·.map ρ)).flatten := by
      rwa [← List.map_flatten, List.mem_map_of_injective hρ]
    rw [Table.getElem?_threadChain hc, Table.getElem?_threadChain hc', h c (Set.mem_univ c)]

theorem crossPairs_map (l r : List ConnectionId) :
    crossPairs (l.map ρ, r.map ρ) = (crossPairs (l, r)).map (Prod.map ρ ρ) := by
  simp [crossPairs, List.map_flatMap, List.flatMap_map, Function.comp_def]

namespace Relabelled

variable {g g' : Graph α}

theorem channelCandidates (h : g.Relabelled ρ g') (fresh : String → Bool) :
    g'.channelCandidates fresh = (g.channelCandidates fresh).map (Prod.map ρ ρ) := by
  let rows (g : Graph α) := g.modules.entries.map fun x => (x.1, x.2.channels)
  have candidates (g : Graph α) : g.channelCandidates fresh =
      (orderedPairs (rows g)).flatMap fun p =>
        if fresh p.1.1 || fresh p.2.1 then crossPairs (p.1.2, p.2.2) else [] := by
    rw [orderedPairs_map, List.flatMap_map]
    rfl
  have renamed : rows g' = (rows g).map (Prod.map id (List.map ρ)) := by
    rw [List.map_map]
    exact h.modules.map_entries fun _ _ _ => rfl
  rw [candidates, candidates, renamed, orderedPairs_map, List.flatMap_map, List.map_flatMap]
  congr 1
  funext p
  simp only [Prod.map_fst, Prod.map_snd, id_eq]
  split
  · exact crossPairs_map _ _
  · rfl

theorem freshChains (h : g.Relabelled ρ g') (fresh : String → Bool) :
    g'.freshChains fresh = g.freshChains fresh := by
  have names (g : Graph α) (c : ConnectionId) :
      (g.connection? c).map (·.name) = (g.shown c).map (·.name) := by
    rw [Graph.shown, Option.map_map]
    rfl
  have chains (m : Module) (id : ModuleId) :
      g'.chainNamesOf (m.rename ρ id) = g.chainNamesOf m := by
    simp only [chainNamesOf, Module.rename, List.filterMap_map, Function.comp_def, names, h.shown]
  unfold Graph.freshChains
  rw [List.flatMap_def, List.flatMap_def]
  congr 3
  apply h.modules.map_entries
  intro name m id
  simp only [chains]

theorem conflictAt? (h : g.Relabelled ρ g') (p : ConnectionId × ConnectionId) :
    g'.conflictAt? (Prod.map ρ ρ p) = g.conflictAt? p := by
  have conflict (g : Graph α) (p : ConnectionId × ConnectionId) :
      g.conflictAt? p = (do (← g.shown p.1).conflict? (← g.shown p.2)) := by
    simp only [Graph.conflictAt?, Graph.shown]
    cases g.connection? p.1 <;> cases g.connection? p.2 <;> rfl
  rw [conflict, conflict, Prod.map_fst, Prod.map_snd, h.shown, h.shown]

/-- The same conflict is met first. -/
theorem conflict? (h : g.Relabelled ρ g') (fresh : String → Bool) :
    g'.conflict? fresh = g.conflict? fresh := by
  have met (pairs : List (ConnectionId × ConnectionId)) :
      (pairs.map (Prod.map ρ ρ)).findSome? g'.conflictAt? = pairs.findSome? g.conflictAt? := by
    rw [List.findSome?_map]
    congr 1
    funext p
    exact h.conflictAt? p
  have chains (chain : String) : (orderedPairs (g'.chainEnds chain)).flatMap crossPairs =
      ((orderedPairs (g.chainEnds chain)).flatMap crossPairs).map (Prod.map ρ ρ) := by
    rw [h.chainEnds, orderedPairs_map, List.flatMap_map, List.map_flatMap]
    congr 1
    funext p
    exact crossPairs_map _ _
  simp only [Graph.conflict?, h.channelCandidates, h.freshChains, chains, met]

end Relabelled

namespace Renamed

variable {g g' : Graph α}

theorem relabelled (h : g.Renamed ρ g') : g.Relabelled ρ g' where
  bijective := h.bijective
  modules := h.modules
  shown c := by
    rw [shown, shown, h.ends, Option.map_map]
    rfl

theorem linkFresh (h : g.Renamed ρ g') (fresh : String → Bool) :
    (g.linkFresh fresh).Renamed ρ (g'.linkFresh fresh) := by
  have hρ := h.bijective.injective
  refine ⟨h.bijective, h.modules, fun c => ?_⟩
  have start : Table.Mirrors ρ Set.univ
      (Table.linkGreedily g'.connections (g'.channelCandidates fresh))
      (Table.linkGreedily g.connections (g.channelCandidates fresh)) := by
    rw [h.relabelled.channelCandidates]
    exact Table.Mirrors.linkGreedily (fun c _ => h.ends c) hρ.injOn
      fun _ _ => ⟨Set.mem_univ _, Set.mem_univ _⟩
  suffices Table.Mirrors ρ Set.univ (g'.linkFresh fresh).connections
      (g.linkFresh fresh).connections from this c (Set.mem_univ c)
  unfold Graph.linkFresh
  rw [h.relabelled.freshChains]
  generalize Table.linkGreedily g'.connections _ = t' at start
  generalize Table.linkGreedily g.connections _ = t at start
  generalize g.freshChains fresh = chains
  induction chains generalizing t t' with
  | nil => exact start
  | cons chain rest ih =>
      refine ih _ _ ?_
      dsimp only
      rw [h.relabelled.chainEnds]
      exact start.threadChain_univ hρ _

end Renamed

/-! ### Gathered ends -/

theorem sortedFamily_congr {ends ends' : List (Connection α)} {chain : Bool}
    (h : ∀ name, (ends.filter (·.kind.isChain == chain)).filter (·.name == name) =
      (ends'.filter (·.kind.isChain == chain)).filter (·.name == name)) :
    sortedFamily ends chain = sortedFamily ends' chain := by
  rw [sortedFamily, mergeSort_congr Connection.name h, sortedFamily]

/-- Ends of one owner, family and name. -/
def tied (e f : Connection α) : Bool :=
  f.owner == e.owner && f.kind.isChain == e.kind.isChain && f.name == e.name

/-- A list of the same ends that keeps the order of ties. -/
structure Reordered (ends ends' : List (Connection α)) : Prop where
  perm : ends.Perm ends'
  ties : ∀ e ∈ ends, ends.filter (tied e) = ends'.filter (tied e)

instance [DecidableEq α] (ends ends' : List (Connection α)) : Decidable (Reordered ends ends') :=
  decidable_of_iff
    (ends.Perm ends' ∧ ∀ e ∈ ends, ends.filter (tied e) = ends'.filter (tied e))
    ⟨fun h => ⟨h.1, h.2⟩, fun h => ⟨h.perm, h.ties⟩⟩

theorem Reordered.filter_eq {ends ends' : List (Connection α)} (h : Reordered ends ends')
    (owner : String) (chain : Bool) (name : String) :
    ((ownedBy owner ends).filter (·.kind.isChain == chain)).filter (·.name == name) =
      ((ownedBy owner ends').filter (·.kind.isChain == chain)).filter (·.name == name) := by
  have place (l : List (Connection α)) :
      ((ownedBy owner l).filter (·.kind.isChain == chain)).filter (·.name == name) =
        l.filter fun e => e.owner == owner && e.kind.isChain == chain && e.name == name := by
    simp only [ownedBy, List.filter_filter]
    apply List.filter_congr
    intro e _
    cases e.owner == owner <;> cases e.kind.isChain == chain <;> simp
  rw [place, place]
  by_cases some : ∃ e ∈ ends, e.owner = owner ∧ e.kind.isChain = chain ∧ e.name = name
  · obtain ⟨e, he, rfl, rfl, rfl⟩ := some
    exact h.ties e he
  · have none : (ends.filter fun e =>
        e.owner == owner && e.kind.isChain == chain && e.name == name) = [] := by
      rw [List.filter_eq_nil_iff]
      intro e he hkey
      exact some ⟨e, he, by simpa [and_assoc] using hkey⟩
    rw [none, ((h.perm.filter _).symm.trans (.of_eq none)).eq_nil]

theorem Reordered.ownedBy_eq_nil {ends ends' : List (Connection α)} (h : Reordered ends ends')
    (name : String) : ownedBy name ends = [] ↔ ownedBy name ends' = [] := by
  have perm : (ownedBy name ends).Perm (ownedBy name ends') := h.perm.filter _
  rw [← List.length_eq_zero_iff, perm.length_eq, List.length_eq_zero_iff]

theorem Reordered.face? {ends ends' : List (Connection α)} (h : Reordered ends ends')
    (name : String) : (gather ends).face? name = (gather ends').face? name := by
  have faces : plainFace (ownedBy name ends) = plainFace (ownedBy name ends') := by
    unfold plainFace portrait
    congr 1
    funext chain
    exact sortedFamily_congr (h.filter_eq name chain)
  simp only [face?_gather, h.ownedBy_eq_nil, faces]

/-- Nothing is linked. -/
def Free (g : Graph α) : Prop :=
  ∀ ⦃c : ConnectionId⦄ ⦃e : Connection α⦄, g.connection? c = some e →
    e.matched = false ∧ e.partner = none

theorem free_gather {ends : List (Connection α)} (free : AllFree ends) : (gather ends).Free := by
  rw [gather_eq]
  refine attachAll_keeps (P := Free) (NameMap.keys_nodup (byOwner ends))
    (fun _ _ => List.not_mem_nil) ?_ ?_
  · intro x hx g _ hg c e he
    rw [connection?_attach] at he
    split at he
    · exact hg he
    · exact free e (mem_byOwner.mp ⟨x.2, hx, List.mem_of_getElem? he⟩).1
  · intro c e he
    simp [empty, connection?] at he

/-- Where nothing is linked, there are no partners to rename. -/
theorem Relabelled.renamed {g g' : Graph α} (h : g.Relabelled ρ g') (hg : g.Free) (hg' : g'.Free) :
    g.Renamed ρ g' := by
  have shown {g : Graph α} (hg : g.Free) (c : ConnectionId) : g.shown c = g.connection? c := by
    rw [Graph.shown]
    cases he : g.connection? c with
    | none => rfl
    | some e =>
        obtain ⟨matched, partner⟩ := hg he
        cases e
        simp_all [Connection.unmatch]
  refine ⟨h.bijective, h.modules, fun c => ?_⟩
  rw [← shown hg', h.shown, shown hg]
  cases he : g.connection? c with
  | none => rfl
  | some e =>
      obtain ⟨-, partner⟩ := hg he
      cases e
      simp_all [Connection.rename]

theorem Reordered.exists_renamed {ends ends' : List (Connection α)} (h : Reordered ends ends')
    (free : AllFree ends) : ∃ ρ, (gather ends).Renamed ρ (gather ends') := by
  have free' : AllFree ends' := fun e he => free e (h.perm.mem_iff.mpr he)
  obtain ⟨ρ, relabelled⟩ := exists_relabelled (coherent_gather ends) (complete_gather ends)
    (coherent_gather ends') (complete_gather ends') h.face?
  exact ⟨ρ, relabelled.renamed (free_gather free) (free_gather free')⟩

/-! ### Handles of modules -/

/-- The handles that modules of these names get, one after another. -/
def numbered (ids : NameMap ModuleId) (names : List String) : NameMap ModuleId :=
  names.foldl (fun ids name => ids.insert name ⟨ids.size⟩) ids

def moduleIds (g : Graph α) : NameMap ModuleId := g.modules.mapValues fun _ m => m.id

theorem moduleIds_attach (g : Graph α) (name : String) (m : Module) (ends : List (Connection α)) :
    (g.attach name m ends).moduleIds = g.moduleIds.insert name ⟨g.moduleIds.size⟩ := by
  rw [moduleIds, attach, NameMap.mapValues_insert, moduleIds, NameMap.size_mapValues]
  rfl

theorem moduleIds_attachAll {β : Type} (name : β → String) (new : Graph α → β → Module)
    (ends : β → List (Connection α)) (g : Graph α) (l : List β) :
    (attachAll name new ends g l).moduleIds = numbered g.moduleIds (l.map name) := by
  induction l generalizing g with
  | nil => rfl
  | cons x rest ih =>
      refine (ih _).trans ?_
      rw [moduleIds_attach]
      rfl

theorem Reordered.moduleIds {ends ends' : List (Connection α)} (h : Reordered ends ends') :
    (gather ends).moduleIds = (gather ends').moduleIds := by
  have owners : (byOwner ends).keys = (byOwner ends').keys := by
    apply NameMap.keys_eq_of_mem
    intro name
    simp only [NameMap.mem_keys_iff, find?_byOwner, h.ownedBy_eq_nil]
    split <;> simp
  rw [gather_eq, gather_eq, moduleIds_attachAll, moduleIds_attachAll]
  exact congrArg (numbered _) owners

/-- Where modules have the handles that they had, the others of their ends are all that changed. -/
theorem SameModules.modules_eq {g g' : Graph α} (h : SameModules ρ g g')
    (ids : g.moduleIds = g'.moduleIds) :
    g'.modules = g.modules.mapValues fun _ m => m.rename ρ m.id := by
  have rows := congrArg NameMap.entries ids
  apply NameMap.ext_entries
  unfold SameModules at h
  simp only [Graph.moduleIds, NameMap.mapValues] at rows ⊢
  generalize g.modules.entries = l, g'.modules.entries = l' at h rows
  induction h with
  | nil => rfl
  | @cons x x' _ _ hx _ ih =>
      obtain ⟨hid, rows⟩ := List.cons.inj rows
      obtain ⟨name, module⟩ := hx
      have id : x.2.id = x'.2.id := congrArg Prod.snd hid
      rw [List.map_cons, ← ih rows, id, ← name, ← module]

/-! ### Assembly -/

namespace Kept

variable [Scalar α]

/-- Equal but for the handles of ends, together with what is derived. -/
structure SameButEnds (ρ : ConnectionId → ConnectionId) (s s' : Kept α) : Prop where
  bijective : Function.Bijective ρ
  modules : s'.graph.modules = s.graph.modules.mapValues fun _ m => m.rename ρ m.id
  ends : ∀ c, s'.graph.connection? (ρ c) = (s.graph.connection? c).map (·.rename ρ)
  partners : ∀ c, s'.graph.partner? (ρ c) = (s.graph.partner? c).map ρ
  edges : s'.edges = s.edges
  unmatched : s'.graph.unmatched = s.graph.unmatched.map ρ
  hasUnmatched : s'.hasUnmatched = s.hasUnmatched

/-- Free ends in another order, ties excepted, are refused for the same conflict or make the same
graph, but for handles of ends. -/
theorem ofConnections_reordered {ends ends' : List (Connection α)} (free : AllFree ends)
    (h : Reordered ends ends') :
    (∃ f, ofConnections ends = .error f ∧ ofConnections ends' = .error f) ∨
      ∃ s s' ρ, ofConnections ends = .ok s ∧ ofConnections ends' = .ok s' ∧
        SameButEnds ρ s s' := by
  obtain ⟨ρ, gathered⟩ := h.exists_renamed free
  have conflict := gathered.relabelled.conflict? fun _ => true
  unfold ofConnections Graph.ofConnections Graph.matchFresh
  rw [conflict]
  cases (gather ends).conflict? fun _ => true with
  | some t => exact .inl ⟨_, rfl, rfl⟩
  | none =>
      have linked := gathered.linkFresh fun _ => true
      refine .inr ⟨_, _, ρ, rfl, rfl, ?_⟩
      exact ⟨linked.bijective, gathered.modules.modules_eq h.moduleIds, linked.ends,
        linked.partner?, linked.edges, linked.unmatched, linked.hasUnmatched⟩

/-- The records of `b` first, and the channels of each module in another order. -/
def shuffledEnds : List (Connection Rat) :=
  [plainEnd .chainSource "s" "b", plainEnd .send "y" "b", plainEnd .recv "x" "b",
    plainEnd .chainSource "s" "a", plainEnd .chainSink "s" "b", plainEnd .chainSink "s" "a",
    plainEnd .send "x" "a"]

theorem ofConnections_shuffled : AllFree headEnds ∧ Reordered headEnds shuffledEnds ∧
    ∃ s s' ρ, ofConnections headEnds = .ok s ∧ ofConnections shuffledEnds = .ok s' ∧
      SameButEnds ρ s s' := by
  have free : AllFree headEnds := by simp [AllFree, headEnds, plainEnd]
  have reordered : Reordered headEnds shuffledEnds := by decide +kernel
  refine ⟨free, reordered, ?_⟩
  refine (ofConnections_reordered free reordered).resolve_left ?_
  rintro ⟨f, hf, -⟩
  have made : ofConnections headEnds = .ok (derive (assembly headEnds)) := by
    rw [ofConnections, Graph.ofConnections, matchFresh_ok (by cbv)]
    rfl
  cases made.symm.trans hf

end Kept

end Graph
end HardwareLinker
