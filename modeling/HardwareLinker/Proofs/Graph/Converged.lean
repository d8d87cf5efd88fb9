import HardwareLinker.Proofs.Graph.Faces
import HardwareLinker.Proofs.Graph.Kept
import HardwareLinker.Proofs.Graph.Renaming

/-!
Graphs that linking has nothing to add to. Once all pairs of modules had their turn no two channels
of different modules can be linked any further, and threading a chain again leaves it as it is. A
merge looks at pairs with a new module and threads the chains that new modules carry; both suffice,
because the pairs and chains that it passes over were settled before and are still the same.
-/

namespace HardwareLinker.Graph

variable {α : Type}

/-- Every end of the table is listed. -/
def Complete (g : Graph α) : Prop :=
  ∀ ⦃c : ConnectionId⦄ ⦃e : Connection α⦄, g.connection? c = some e → ∃ chain A, g.Lists chain A c

/-- No two channels of different modules could still be linked. -/
def Exhausted (g : Graph α) : Prop :=
  ∀ ⦃A B : String⦄ ⦃c d : ConnectionId⦄, A ≠ B → g.Lists false A c → g.Lists false B d →
    Table.linkable g.connections c d = false

/-- Threading a chain again changes nothing. -/
def Threaded (g : Graph α) : Prop :=
  ∀ ⦃chain : String⦄ ⦃c : ConnectionId⦄, c ∈ (g.chainEnds chain).flatten →
    (Table.threadChain g.connections (g.chainEnds chain))[c.slot]? = g.connection? c

structure Converged (g : Graph α) : Prop where
  sound : g.Sound
  complete : g.Complete
  exhausted : g.Exhausted
  threaded : g.Threaded

namespace Table

theorem map_unmatch_of_freed_eq {t t' : Table α} (h : t'.freed = t.freed) (c : ConnectionId) :
    t'[c.slot]?.map (·.unmatch) = t[c.slot]?.map (·.unmatch) := by
  rw [← freed_getElem?, ← freed_getElem?, h]

/-! ### Greedy passes leave nothing to link -/

def pairUp (t : Table α) (p : ConnectionId × ConnectionId) : Table α :=
  if t.linkable p.1 p.2 then t.link p.1 p.2 else t

theorem linkGreedily_eq (t : Table α) (pairs : List (ConnectionId × ConnectionId)) :
    t.linkGreedily pairs = pairs.foldl pairUp t := rfl

theorem narrows_pairUp (t : Table α) (p : ConnectionId × ConnectionId) :
    (t.pairUp p).Narrows t := by
  unfold pairUp
  split
  · exact narrows_link t p.1 p.2
  · exact fun _ _ h => h

theorem narrows_linkGreedily (t : Table α) (pairs : List (ConnectionId × ConnectionId)) :
    (t.linkGreedily pairs).Narrows t := by
  rw [linkGreedily_eq]
  refine List.foldlRecOn pairs _ (motive := fun u : Table α => u.Narrows t) (fun _ _ h => h)
    fun u hu p _ => ?_
  exact fun a b h => hu a b (narrows_pairUp u p a b h)

theorem Narrows.not_linkable {t t' : Table α} (h : t'.Narrows t) {a b : ConnectionId}
    (hab : t.linkable a b = false) : t'.linkable a b = false := by
  rw [Bool.eq_false_iff]
  intro h'
  exact Bool.false_ne_true (hab.symm.trans (h a b h'))

/-- A pair that had its turn cannot be linked any more. -/
theorem not_linkable_pairUp (t : Table α) (a b : ConnectionId) :
    (t.pairUp (a, b)).linkable a b = false := by
  unfold pairUp
  split
  · rw [Bool.eq_false_iff]
    intro h
    obtain ⟨e, -, he, -, -, hfree, -⟩ := linkable_iff.mp h
    exact (getElem?_of_free_link he hfree).1 rfl
  · next h => exact eq_false_of_ne_true h

theorem not_linkable_linkGreedily (t : Table α) {pairs : List (ConnectionId × ConnectionId)}
    {a b : ConnectionId} (h : (a, b) ∈ pairs) : (t.linkGreedily pairs).linkable a b = false := by
  rw [linkGreedily_eq]
  refine foldl_settles (P := fun u => u.linkable a b = false) (Q := fun _ => True) h
    (fun _ _ _ => trivial) (fun u _ => not_linkable_pairUp u a b) (fun u p hu => ?_) trivial
  exact (narrows_pairUp u p).not_linkable hu

/-- Of chains without common ends that are threaded in turn, each ends as if threaded alone. -/
theorem getElem?_threadChains {members : String → List (List ConnectionId)} {chain : String}
    {c : ConnectionId} (hc : c ∈ (members chain).flatten)
    (apart : ∀ other, other ≠ chain → c ∉ (members other).flatten) {chains : List String}
    (h : chain ∈ chains) (t : Table α) :
    (chains.foldl (fun u other => u.threadChain (members other)) t)[c.slot]? =
      (t.threadChain (members chain))[c.slot]? := by
  induction chains generalizing t with
  | nil => cases h
  | cons other rest ih =>
      rw [List.foldl_cons]
      by_cases hrest : chain ∈ rest
      · refine (ih hrest _).trans (threadChain_congr (fun d _ => ?_) hc)
        exact map_unmatch_of_freed_eq (freed_threadChain t _) d
      · obtain rfl : chain = other := (List.mem_cons.mp h).resolve_right hrest
        refine List.foldlRecOn rest _ (motive := fun u : Table α => u[c.slot]? = _) rfl ?_
        intro u hu other hm
        exact (getElem?_threadChain (apart other (ne_of_mem_of_not_mem hm hrest))).trans hu

end Table

/-! ### Linking what is new -/

theorem not_mem_chainEnds {g : Graph α} (hg : g.Coherent) {A : String} {c : ConnectionId}
    (hc : g.Lists false A c) (chain : String) : c ∉ (g.chainEnds chain).flatten := by
  intro hm
  obtain ⟨⟨B, hB⟩, -⟩ := mem_flatten_chainEnds.mp hm
  exact Bool.false_ne_true (hg.owner_unique hc hB).2

theorem connection?_linkFresh_channel {g : Graph α} (hg : g.Coherent) (fresh : String → Bool)
    {A : String} {c : ConnectionId} (hc : g.Lists false A c) :
    (g.linkFresh fresh).connection? c =
      (Table.linkGreedily g.connections (g.channelCandidates fresh))[c.slot]? := by
  refine List.foldlRecOn _ _ (motive := fun u : Table α => u[c.slot]? = _) rfl
    fun u hu chain _ => ?_
  exact (Table.getElem?_threadChain (not_mem_chainEnds hg hc chain)).trans hu

/-- Pairs with a new module are exhausted; the others are as exhausted as they were. -/
theorem exhausted_linkFresh {g : Graph α} (hg : g.Coherent) {fresh : String → Bool}
    (hold : ∀ ⦃A B : String⦄ ⦃c d : ConnectionId⦄, ¬ fresh A = true → ¬ fresh B = true → A ≠ B →
      g.Lists false A c → g.Lists false B d → Table.linkable g.connections c d = false) :
    (g.linkFresh fresh).Exhausted := by
  intro A B c d hne hc hd
  rw [lists_linkFresh] at hc hd
  refine (Table.linkable_congr (connection?_linkFresh_channel hg fresh hc)
    (connection?_linkFresh_channel hg fresh hd)).trans ?_
  by_cases hfresh : fresh A = true ∨ fresh B = true
  · obtain ⟨mA, hA, hcA⟩ := hc
    obtain ⟨mB, hB, hdB⟩ := hd
    cases orderedPairs_total hA hB fun e => hne (Prod.ext_iff.mp e).1 with
    | inl h =>
        refine Table.not_linkable_linkGreedily _ (mem_channelCandidates.mpr ?_)
        exact ⟨A, B, mA, mB, h, by simpa using hfresh, hcA, hdB⟩
    | inr h =>
        rw [Table.linkable_comm]
        refine Table.not_linkable_linkGreedily _ (mem_channelCandidates.mpr ?_)
        exact ⟨B, A, mB, mA, h, by simpa [or_comm] using hfresh, hdB, hcA⟩
  · rw [not_or] at hfresh
    exact (Table.narrows_linkGreedily _ _).not_linkable (hold hfresh.1 hfresh.2 hne hc hd)

/-- Two chains have no end in common. -/
theorem chain_unique {g : Graph α} {chain chain' : String} {c : ConnectionId}
    (h : c ∈ (g.chainEnds chain).flatten) (h' : c ∈ (g.chainEnds chain').flatten) :
    chain = chain' := by
  obtain ⟨-, e, he, rfl⟩ := mem_flatten_chainEnds.mp h
  obtain ⟨-, f, hf, rfl⟩ := mem_flatten_chainEnds.mp h'
  rw [Option.some.inj (he.symm.trans hf)]

/-- Chains of new modules were threaded last; the others are as they were. -/
theorem threaded_linkFresh {g : Graph α} (hg : g.Coherent) {fresh : String → Bool}
    (hold : ∀ ⦃chain : String⦄ ⦃c : ConnectionId⦄, chain ∉ g.freshChains fresh →
      c ∈ (g.chainEnds chain).flatten →
        (Table.threadChain g.connections (g.chainEnds chain))[c.slot]? = g.connection? c) :
    (g.linkFresh fresh).Threaded := by
  intro chain c hc
  have members : (g.linkFresh fresh).chainEnds chain = g.chainEnds chain :=
    chainEnds_withTable (freed_linkFresh g fresh) chain
  rw [members] at hc ⊢
  have again {u : Table α} (hu : u.freed = Table.freed g.connections) :
      (Table.threadChain u (g.chainEnds chain))[c.slot]? =
        (Table.threadChain g.connections (g.chainEnds chain))[c.slot]? :=
    Table.threadChain_congr (fun d _ => Table.map_unmatch_of_freed_eq hu d) hc
  refine (again (freed_linkFresh g fresh)).trans ?_
  by_cases hchain : chain ∈ g.freshChains fresh
  · refine (again (Table.freed_linkGreedily _ (g.channelCandidates fresh))).symm.trans ?_
    refine (Table.getElem?_threadChains hc ?_ hchain _).symm
    intro other hother hm
    exact hother (chain_unique hm hc)
  · obtain ⟨⟨A, hA⟩, e, he, rfl⟩ := mem_flatten_chainEnds.mp hc
    refine (hold hchain hc).trans (connection?_linkFresh hg hA fun e' he' => ?_).symm
    rwa [Option.some.inj (he'.symm.trans he)]

/-! ### Complete tables -/

theorem complete_empty : Complete (empty : Graph α) := by
  intro c e he
  simp [empty, connection?] at he

theorem Complete.attach {g : Graph α} (h : g.Complete) {name : String}
    (hnew : name ∉ g.modules.keys) (m : Module) (ends : List (Connection α)) :
    (g.attach name m ends).Complete := by
  intro c e he
  rw [connection?_attach] at he
  split at he
  · obtain ⟨chain, A, hc⟩ := h he
    exact ⟨chain, A, (lists_attach hnew).mpr (.inl hc)⟩
  · next hlt =>
    refine ⟨e.kind.isChain, name, (lists_attach hnew).mpr (.inr ⟨rfl, mem_listFamily.mpr ?_⟩)⟩
    exact ⟨e, Nat.le_of_not_lt hlt, he, rfl⟩

theorem Complete.linkFresh {g : Graph α} (h : g.Complete) (fresh : String → Bool) :
    (g.linkFresh fresh).Complete := by
  intro c e he
  obtain ⟨e', he', -⟩ := Table.get_of_freed_eq (freed_linkFresh g fresh) he
  exact h he'

theorem complete_gather (ends : List (Connection α)) : (gather ends).Complete := by
  rw [gather_eq]
  refine attachAll_keeps (NameMap.keys_nodup (byOwner ends)) (fun _ _ => List.not_mem_nil) ?_
    complete_empty
  intro x _ g hnew h
  exact h.attach hnew _ _

theorem Complete.juxtapose {g incoming : Graph α} (h : g.Complete)
    (apart : ¬ ∃ name, g.SharedName incoming name) : (g.juxtapose incoming).Complete := by
  rw [juxtapose_eq]
  refine attachAll_keeps incoming.modules.keys_nodup ?_ ?_ h
  · intro x hx hm
    exact apart ⟨x.1, hm, NameMap.mem_keys_of_mem hx⟩
  · intro x _ g hnew h
    exact h.attach hnew _ _

/-! ### Assembly and merging -/

theorem converged_empty : Converged (empty : Graph α) where
  sound := sound_empty
  complete := complete_empty
  exhausted _ _ _ _ _ hc := absurd hc.choose_spec.1 List.not_mem_nil
  threaded chain c hc := by
    obtain ⟨⟨A, m, hm, -⟩, -⟩ := mem_flatten_chainEnds.mp hc
    exact absurd hm List.not_mem_nil

theorem exhausted_ofConnections {ends : List (Connection α)} {g : Graph α}
    (h : ofConnections ends = .ok g) : g.Exhausted := by
  obtain ⟨-, rfl⟩ := matchFresh_eq_ok h
  refine exhausted_linkFresh (coherent_gather ends) ?_
  intro A _ _ _ hA
  exact absurd rfl hA

theorem threaded_ofConnections {ends : List (Connection α)} {g : Graph α}
    (h : ofConnections ends = .ok g) : g.Threaded := by
  obtain ⟨-, rfl⟩ := matchFresh_eq_ok h
  refine threaded_linkFresh (coherent_gather ends) ?_
  intro chain c hchain hc
  obtain ⟨⟨A, hA⟩, e, he, rfl⟩ := mem_flatten_chainEnds.mp hc
  exact absurd (mem_freshChains rfl hA he) hchain

theorem converged_ofConnections {ends : List (Connection α)} {g : Graph α}
    (free : ∀ e ∈ ends, e.matched = false ∧ e.partner = none) (h : ofConnections ends = .ok g) :
    g.Converged where
  sound := sound_ofConnections free h
  complete := by
    obtain ⟨-, rfl⟩ := matchFresh_eq_ok h
    exact (complete_gather ends).linkFresh _
  exhausted := exhausted_ofConnections h
  threaded := threaded_ofConnections h

/-- The modules of an extended graph that are not new are those that it had. -/
theorem Extends.entries_filter {g g' : Graph α} {fresh : String → Bool}
    (h : g'.Extends g fun name => fresh name = true)
    (hold : ∀ name ∈ g.modules.keys, ¬ fresh name = true) :
    g'.modules.entries.filter (fun x => !fresh x.1) = g.modules.entries := by
  apply NameMap.entries_eq_of_mem (g'.modules.ascending.filter _) g.modules.ascending
  intro x
  rw [List.mem_filter, Bool.not_eq_true', ← Bool.not_eq_true]
  constructor
  · intro ⟨hx, hf⟩
    exact (h.entries hf).mp hx
  · intro hx
    have hf := hold x.1 (NameMap.mem_keys_of_mem hx)
    exact ⟨(h.entries hf).mpr hx, hf⟩

/-- Ends of modules that carry none of a chain do not show among its members. -/
theorem filter_endsOn {g : Graph α} {chain : String} {fresh : String → Bool}
    {l : List (String × Module)} (none : ∀ x ∈ l, fresh x.1 = true → g.endsOn chain x.2 = []) :
    (l.map fun x => g.endsOn chain x.2).filter (!·.isEmpty) =
      ((l.filter fun x => !fresh x.1).map fun x => g.endsOn chain x.2).filter (!·.isEmpty) := by
  induction l with
  | nil => rfl
  | cons x rest ih =>
      obtain ⟨hx, hrest⟩ := List.forall_mem_cons.mp none
      cases hf : fresh x.1 with
      | true => simp [hx hf, hf, ih hrest]
      | false => simp [List.filter_cons, hf, ih hrest]

/-- A chain that no new module carries has the members that it had. -/
theorem Extends.chainEnds {g g' : Graph α} {fresh : String → Bool}
    (h : g'.Extends g fun name => fresh name = true) (hg : g.Coherent)
    (hold : ∀ name ∈ g.modules.keys, ¬ fresh name = true) {chain : String}
    (hchain : chain ∉ g'.freshChains fresh) : g'.chainEnds chain = g.chainEnds chain := by
  have none : ∀ x ∈ g'.modules.entries, fresh x.1 = true → g'.endsOn chain x.2 = [] := by
    intro x hx hf
    apply List.eq_nil_iff_forall_not_mem.mpr
    intro c hc
    obtain ⟨hcx, e, he, rfl⟩ := mem_endsOn.mp hc
    exact hchain (mem_freshChains hf ⟨x.2, hx, hcx⟩ he)
  have same : ∀ x ∈ g.modules.entries, g'.endsOn chain x.2 = g.endsOn chain x.2 := by
    intro x hx
    apply List.filter_congr
    intro c hc
    have hlists : g.Lists true x.1 c := ⟨x.2, hx, hc⟩
    obtain ⟨e, he, -⟩ := hg.listed hlists
    rw [he, h.kept he]
  rw [chainEnds_eq, chainEnds_eq, NameMap.values, NameMap.values, List.map_map, List.map_map]
  refine (filter_endsOn none).trans ?_
  rw [h.entries_filter hold, List.map_congr_left same]
  rfl

/-- Pairs of old modules are as exhausted as they were, and the others had their turn. -/
theorem Exhausted.merge {g incoming g' : Graph α} (h : g.Exhausted) (hg : g.Coherent)
    (hi : incoming.Coherent) (hm : g.merge incoming = .ok g') : g'.Exhausted := by
  obtain ⟨hshared, hm⟩ := merge_eq_ok hm
  obtain ⟨-, rfl⟩ := matchFresh_eq_ok hm
  obtain ⟨hc, hext⟩ := juxtapose_coherent hg hi hshared
  refine exhausted_linkFresh hc ?_
  intro A B c d hA hB hne hcA hdB
  rw [NameMap.contains_iff] at hA hB
  obtain ⟨hcA, hce⟩ := hext.old hg hA hcA
  obtain ⟨hdB, hde⟩ := hext.old hg hB hdB
  exact (Table.linkable_congr hce hde).trans (h hne hcA hdB)

/-- Chains that no new module carries have the members and the links that they had. -/
theorem Threaded.merge {g incoming g' : Graph α} (h : g.Threaded) (hg : g.Coherent)
    (hi : incoming.Coherent) (hm : g.merge incoming = .ok g') : g'.Threaded := by
  obtain ⟨hshared, hm⟩ := merge_eq_ok hm
  obtain ⟨-, rfl⟩ := matchFresh_eq_ok hm
  obtain ⟨hc, hext⟩ := juxtapose_coherent hg hi hshared
  have hext : (g.juxtapose incoming).Extends g fun name => incoming.modules.contains name = true :=
    ⟨fun hn => hext.entries (mt NameMap.contains_iff.mpr hn), hext.kept⟩
  have hold : ∀ name ∈ g.modules.keys, ¬ incoming.modules.contains name = true := by
    intro name hname hn
    exact sharedModule?_eq_none.mp hshared ⟨name, hname, NameMap.contains_iff.mp hn⟩
  refine threaded_linkFresh hc ?_
  intro chain c hchain hcm
  have members := hext.chainEnds hg hold hchain
  rw [members] at hcm ⊢
  have same : ∀ d ∈ (g.chainEnds chain).flatten,
      (g.juxtapose incoming).connection? d = g.connection? d := by
    intro d hd
    obtain ⟨-, e, he, -⟩ := mem_flatten_chainEnds.mp hd
    rw [he, hext.kept he]
  rw [same c hcm, ← h hcm]
  exact Table.threadChain_congr (fun d hd => congrArg (Option.map _) (same d hd)) hcm

theorem Converged.merge {g incoming g' : Graph α} (hg : g.Converged) (hi : incoming.Sound)
    (h : g.merge incoming = .ok g') : g'.Converged where
  sound := sound_merge hg.sound hi h
  complete := by
    obtain ⟨hshared, h⟩ := merge_eq_ok h
    obtain ⟨-, rfl⟩ := matchFresh_eq_ok h
    exact (hg.complete.juxtapose (sharedModule?_eq_none.mp hshared)).linkFresh _
  exhausted := hg.exhausted.merge hg.sound.coherent hi.coherent h
  threaded := hg.threaded.merge hg.sound.coherent hi.coherent h

end HardwareLinker.Graph
