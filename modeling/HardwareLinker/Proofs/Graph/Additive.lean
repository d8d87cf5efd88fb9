import HardwareLinker.Proofs.Graph.Orderly

/-!
Merging adds. What handles of the kept graph denote stays, and so do the links of its channels and
of the chains that no incoming module carries; the incoming modules come with their descriptions and
the ends that they list, in the order of their interfaces and free of what linked them before.
-/

namespace HardwareLinker.Graph

variable {α : Type}

/-! ### Links that matching leaves alone -/

theorem Table.getElem?_linkGreedily_of_matched {t : Table α}
    {pairs : List (ConnectionId × ConnectionId)} {c : ConnectionId} {e : Connection α}
    (he : t[c.slot]? = some e) (hm : e.matched = true) :
    (t.linkGreedily pairs)[c.slot]? = some e := by
  refine List.foldlRecOn pairs _ (motive := fun u : Table α => u[c.slot]? = some e) he
    fun u hu p _ => ?_
  have busy {d : ConnectionId} {x : Connection α} (hx : u[d.slot]? = some x)
      (free : x.matched = false) : c ≠ d := by
    intro hcd
    cases (hcd ▸ hx).symm.trans hu
    exact Bool.noConfusion (free.symm.trans hm)
  dsimp only
  split
  · next hl =>
    obtain ⟨x, y, hx, hy, -, hxf, hyf, -⟩ := Table.linkable_iff.mp hl
    exact (Table.getElem?_link_of_ne (busy hx hxf) (busy hy hyf)).trans hu
  · exact hu

/-- Channels that are linked stay linked as they are. -/
theorem connection?_linkFresh_matched {g : Graph α} (hg : g.Coherent) (fresh : String → Bool)
    {c : ConnectionId} {e : Connection α} (he : g.connection? c = some e)
    (hk : e.kind.isChain = false) (hm : e.matched = true) :
    (g.linkFresh fresh).connection? c = some e := by
  refine List.foldlRecOn _ _ (motive := fun u : Table α => u[c.slot]? = some e)
    (Table.getElem?_linkGreedily_of_matched he hm) fun u hu chain _ => ?_
  refine (Table.getElem?_threadChain fun hmem => ?_).trans hu
  obtain ⟨⟨A, hA⟩, -⟩ := mem_flatten_chainEnds.mp hmem
  obtain ⟨x, hx, -, hkx⟩ := hg.listed hA
  cases hx.symm.trans he
  exact Bool.noConfusion (hkx.symm.trans hk)

theorem exists_of_mem_freshChains {g : Graph α} {fresh : String → Bool} {chain : String}
    (h : chain ∈ g.freshChains fresh) :
    ∃ A c e, fresh A = true ∧ g.Lists true A c ∧ g.connection? c = some e ∧ e.name = chain := by
  obtain ⟨⟨A, m⟩, hm, hchain⟩ := List.mem_flatMap.mp (NameSet.mem_toList_ofList.mp h)
  dsimp only at hchain
  split at hchain
  · next hA =>
    obtain ⟨c, hc, e, he, hname⟩ := mem_chainNamesOf.mp hchain
    exact ⟨A, c, e, hA, ⟨m, hm, hc⟩, he, hname⟩
  · cases hchain

/-- Only chains that incoming modules carry are threaded anew. -/
theorem not_mem_freshChains_juxtapose {g incoming : Graph α} (hg : g.Coherent)
    (hi : incoming.Coherent) (apart : ¬ ∃ name, g.SharedName incoming name) {chain : String}
    (h : ∀ A, incoming.carries chain A = false) :
    chain ∉ (g.juxtapose incoming).freshChains incoming.modules.contains := by
  intro hm
  obtain ⟨A, c, e, hA, hc, he, hname⟩ := exists_of_mem_freshChains hm
  cases lists_juxtapose hg hi apart hc he with
  | inl old =>
      obtain ⟨⟨m, hm, -⟩, -⟩ := old
      exact apart ⟨A, NameMap.mem_keys_of_mem hm, NameMap.contains_iff.mp hA⟩
  | inr new =>
      obtain ⟨d, x, hd, hx, rfl⟩ := new
      exact Bool.noConfusion ((h A).symm.trans (carries_iff.mpr ⟨d, x, hd, hx, hname⟩))

/-! ### The table of ends -/

theorem toList_attachAll {β : Type} (name : β → String) (new : Graph α → β → Module)
    (ends : β → List (Connection α)) (g : Graph α) (l : List β) :
    (attachAll name new ends g l).connections.toList = g.connections.toList ++ l.flatMap ends := by
  induction l generalizing g with
  | nil => exact (List.append_nil _).symm
  | cons x rest ih =>
      have first : (g.attach (name x) (new g x) (ends x)).connections.toList =
          g.connections.toList ++ ends x := Array.toList_append
      refine (ih _).trans ?_
      rw [first, List.flatMap_cons, List.append_assoc]

/-- Behind the ends of the graph come those that the incoming modules list. -/
theorem toList_juxtapose (g incoming : Graph α) :
    (g.juxtapose incoming).connections.toList =
      g.connections.toList ++ incoming.handles.filterMap incoming.shown := by
  rw [juxtapose_eq, toList_attachAll, handles, NameMap.values, List.flatMap_map,
    List.filterMap_flatMap]
  rfl

theorem connection?_juxtapose {g incoming : Graph α} {c : ConnectionId} {e : Connection α}
    (h : (g.juxtapose incoming).connection? c = some e) :
    g.connection? c = some e ∨
      ∃ chain A d x, incoming.Lists chain A d ∧ incoming.connection? d = some x ∧
        x.unmatch = e := by
  rw [connection?, ← Array.getElem?_toList, toList_juxtapose, List.getElem?_append] at h
  split at h
  · rw [Array.getElem?_toList] at h
    exact .inl h
  · obtain ⟨d, hd, hshown⟩ := List.mem_filterMap.mp (List.mem_of_getElem? h)
    obtain ⟨chain, A, hd⟩ := mem_flatMap_ends.mp hd
    obtain ⟨x, hx, hfree⟩ := shown_eq_some.mp hshown
    exact .inr ⟨chain, A, d, x, hd, hx, hfree⟩

theorem Table.toList_freed (t : Table α) : t.freed.toList = t.toList.map Connection.unmatch :=
  Array.toList_map

theorem toList_freed_juxtapose (g incoming : Graph α) :
    (Table.freed (g.juxtapose incoming).connections).toList =
      (Table.freed g.connections).toList ++ incoming.handles.filterMap incoming.shown := by
  have free : (incoming.handles.filterMap incoming.shown).map Connection.unmatch =
      incoming.handles.filterMap incoming.shown := by
    refine (List.map_congr_left fun e he => ?_).trans (List.map_id' _)
    obtain ⟨d, -, hshown⟩ := List.mem_filterMap.mp he
    obtain ⟨x, -, rfl⟩ := shown_eq_some.mp hshown
    rfl
  rw [Table.toList_freed, Table.toList_freed, toList_juxtapose, List.map_append, free]

/-- A chain that no incoming module carries has the ends and the links that it had. -/
theorem connection?_merged_chain {g incoming : Graph α} (hg : g.Coherent) (hi : incoming.Coherent)
    (hshared : g.sharedModule? incoming = none) {c : ConnectionId} {e : Connection α}
    (hk : e.kind.isChain = true) (h : ∀ A, incoming.carries e.name A = false) :
    ((g.juxtapose incoming).linkFresh incoming.modules.contains).connection? c = some e ↔
      g.connection? c = some e := by
  obtain ⟨coherent, extended⟩ := juxtapose_coherent hg hi hshared
  have untouched := not_mem_freshChains_juxtapose hg hi (sharedModule?_eq_none.mp hshared) h
  constructor
  · intro he
    obtain ⟨x, hx, hfree⟩ := Table.get_of_freed_eq (freed_linkFresh _ _) he
    rw [← Connection.kind_eq_of_unmatch hfree] at hk
    rw [← Connection.name_eq_of_unmatch hfree] at h untouched
    cases (connection?_linkFresh_chain coherent hx hk untouched).symm.trans he
    cases connection?_juxtapose hx with
    | inl old => exact old
    | inr new =>
        obtain ⟨chain, A, d, y, hd, hy, rfl⟩ := new
        obtain ⟨-, rfl, -⟩ := hi.listed_on_owner hd hy
        have carried : incoming.carries y.name A = true := carries_iff.mpr ⟨d, y, hk ▸ hd, hy, rfl⟩
        exact Bool.noConfusion ((h A).symm.trans carried)
  · intro he
    exact connection?_linkFresh_chain coherent (extended.kept he) hk untouched

/-! ### Incoming links -/

theorem shown_withTable {g : Graph α} {t : Table α} (h : t.freed = Table.freed g.connections) :
    (g.withTable t).shown = g.shown := by
  funext c
  rw [shown_eq_freed, shown_eq_freed]
  exact congrArg (·[c.slot]?) h

theorem mergeConflict?_withTable (g : Graph α) {incoming : Graph α} {t : Table α}
    (h : t.freed = Table.freed incoming.connections) :
    g.mergeConflict? (incoming.withTable t) = g.mergeConflict? incoming := by
  have compared (incoming : Graph α) (c o : ConnectionId) :
      (do
        let new ← incoming.connection? c
        let old ← g.connection? o
        if old.kind.isChain == new.kind.isChain then old.conflict? new else none) =
      (do
        let new ← incoming.shown c
        let old ← g.connection? o
        if old.kind.isChain == new.kind.isChain then old.conflict? new else none) := by
    unfold shown
    cases incoming.connection? c <;> rfl
  unfold mergeConflict?
  simp only [compared, shown_withTable h]
  rfl

theorem hasUnmatched_iff (g : Graph α) : g.hasUnmatched = true ↔ g.unmatched ≠ [] := by
  simp [hasUnmatched]

namespace Kept

/-- A merge does not see how the incoming ends were linked. -/
theorem merge_withTable [Scalar α] {incoming : Graph α} {t : Table α}
    (h : t.freed = Table.freed incoming.connections) :
    (merge (incoming.withTable t) : Update α Unit) = merge incoming := by
  have ends (m : Module) : (incoming.withTable t).freedEnds m = incoming.freedEnds m :=
    congrArg (m.ends.filterMap ·) (shown_withTable h)
  unfold merge insertModules
  simp only [mergeConflict?_withTable _ h, ends]
  rfl

/-! ### What a merge adds -/

variable [Scalar α]

/-- What a merge of an incoming graph makes of a kept one. -/
structure Additive (s incoming s' : Kept α) : Prop where
  apart : ¬ ∃ name, s.graph.SharedName incoming.graph name
  modules : ∀ id x, s.graph.moduleAt? id = some x → s'.graph.moduleAt? id = some x
  connections : ∀ c e, s.graph.connection? c = some e →
    ∃ e', s'.graph.connection? c = some e' ∧ e'.unmatch = e.unmatch
  channels : ∀ c e, s.graph.connection? c = some e → e.kind.isChain = false → e.matched = true →
    s'.graph.connection? c = some e
  chains : ∀ c e, e.kind.isChain = true → (∀ A, incoming.graph.carries e.name A = false) →
    (s'.graph.connection? c = some e ↔ s.graph.connection? c = some e)
  /-- Both graphs keep their modules, with the listed ends in interface order. -/
  faces : ∀ name, s'.graph.face? name = (incoming.graph.face? name).or (s.graph.face? name)
  sorted : s'.graph.FacesSorted
  /-- Ends that no incoming module lists are left behind. -/
  table : (Table.freed s'.graph.connections).toList = (Table.freed s.graph.connections).toList ++
    incoming.graph.handles.filterMap incoming.graph.shown
  /-- With other links among the incoming ends the merge comes out the same. -/
  forgetful : ∀ t : Table α, t.freed = Table.freed incoming.graph.connections →
    (merge (incoming.graph.withTable t)).apply s = (.ok (), s')
  mark : s'.hasUnmatched = true ↔ s'.graph.unmatched ≠ []

theorem apply_merge_eq_ok {s s' : Kept α} {incoming : Graph α} (hg : s.graph.Consistent)
    (hi : incoming.Consistent) (h : (merge incoming).apply s = (.ok (), s')) :
    s.graph.merge incoming = .ok s'.graph ∧ s' = derive s'.graph := by
  rw [apply_merge hg hi] at h
  cases hm : s.graph.merge incoming with
  | error f =>
      rw [hm] at h
      cases h
  | ok g =>
      rw [hm] at h
      cases h
      exact ⟨rfl, rfl⟩

/-- After any history on either side, a merge that succeeds only adds. -/
theorem Made.merge_additive {s incoming s' : Kept α} (hs : s.Made) (hi : incoming.Made)
    (h : (merge incoming.graph).apply s = (.ok (), s')) : s.Additive incoming s' := by
  have old := hs.orderly
  have new := hi.orderly
  have hg := old.consistent.coherent
  have hj := new.consistent.coherent
  obtain ⟨hm, derived⟩ := apply_merge_eq_ok old.consistent new.consistent h
  have after := old.merge new hm
  obtain ⟨hshared, hm⟩ := merge_eq_ok hm
  obtain ⟨-, linked⟩ := matchFresh_eq_ok hm
  have apart := sharedModule?_eq_none.mp hshared
  obtain ⟨coherent, extended⟩ := juxtapose_coherent hg hj hshared
  constructor
  case apart => exact apart
  case modules =>
    intro id x hx
    obtain ⟨hx, hid⟩ := old.numbered.moduleAt?_eq_some.mp hx
    have kept : ¬ x.1 ∈ incoming.graph.modules.keys := fun shared =>
      apart ⟨x.1, NameMap.mem_keys_of_mem hx, shared⟩
    rw [after.numbered.moduleAt?_eq_some, linked]
    exact ⟨(extended.entries kept).mpr hx, hid⟩
  case connections =>
    intro c e he
    rw [linked]
    exact Table.get_of_freed_eq (freed_linkFresh _ _).symm (extended.kept he)
  case channels =>
    intro c e he hk hmatched
    rw [linked]
    exact connection?_linkFresh_matched coherent _ (extended.kept he) hk hmatched
  case chains =>
    intro c e hk none
    rw [linked]
    exact connection?_merged_chain hg hj hshared hk none
  case faces =>
    intro name
    rw [linked, face?_linkFresh]
    exact face?_juxtapose hg hj new.sorted apart name
  case sorted => exact after.sorted
  case table =>
    rw [linked, freed_linkFresh]
    exact toList_freed_juxtapose s.graph incoming.graph
  case forgetful =>
    intro t ht
    rw [merge_withTable ht]
    exact h
  case mark =>
    rw [derived]
    exact hasUnmatched_iff s'.graph

/-! ### A described module with an open end -/

/-- The head of the pipeline with a further chain that closes on one module. -/
def ringed : Kept Rat :=
  derive (assembly (headEnds ++ [plainEnd .chainSource "k" "b", plainEnd .chainSink "k" "b"]))

/-- The tail of the pipeline with an optional end that was trimmed, and with an artifact. -/
def packaged : Kept Rat :=
  (derive (assembly (tailEnds ++
    [{ plainEnd .recv "z" "c" with optional := true }]))).trim.modifyModule "c"
      fun m => m.addArtifact "netlist" "c.edf"

theorem ringed_made : ringed.Made :=
  (derive_assembly_reachable (by cbv)).made

theorem packaged_made : packaged.Made :=
  ((derive_assembly_reachable (by cbv)).made.trimmed).described "c"
    (Module.descriptive_addArtifact "netlist" "c.edf")

/-- The optional end is left behind, the artifact is carried over. -/
theorem packaged_merge_additive : ∃ s', (merge packaged.graph).apply ringed = (.ok (), s') ∧
    s'.graph.connections.size = 12 ∧
    (s'.graph.face? "c").map (·.artifacts.entries) = some [("netlist", ["c.edf"])] ∧
    ringed.Additive packaged s' := by
  have ok :
      (ringed.graph.merge packaged.graph).toOption.map (·.connections.size) = some 12 := by cbv
  obtain ⟨g, hg, size⟩ := Option.map_eq_some_iff.mp ok
  have merged : (merge packaged.graph).apply ringed = (.ok (), derive g) := by
    rw [apply_merge ringed_made.orderly.consistent packaged_made.orderly.consistent,
      toOption_eq_some.mp hg]
  have additive := ringed_made.merge_additive packaged_made merged
  refine ⟨derive g, merged, size, ?_, additive⟩
  rw [additive.faces]
  cbv

end Kept

end HardwareLinker.Graph
