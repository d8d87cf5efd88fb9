import HardwareLinker.Proofs.Traffic
import HardwareLinker.Proofs.Graph.Edges
import HardwareLinker.Proofs.Graph.Kept

/-!
The kept edges. Only matching derives the edges anew, yet every operation leaves those that would be
derived from the graph as it is: a new module has no ends, trimming takes ends that feed nobody, and
a merge that fails has written nothing. So the kept edges follow the links, whatever match state the
ends of the graph came with, and the traffic tables that are summed up from them count each link
once.
-/

namespace HardwareLinker.Graph

variable {α : Type}

/-! ### Graphs of any ends -/

theorem Consistent.attach_nil {g : Graph α} (h : g.Consistent) {name : String}
    (hnew : name ∉ g.modules.keys) (m : Module) : (g.attach name m []).Consistent := by
  refine ⟨h.coherent.attach hnew (by simp), ?_⟩
  intro chain A B c d e f _ hne hA hB he hf hn
  rw [connection?, connections_attach_nil] at he hf
  exact h.typed trivial hne ((lists_attach_nil hnew).mp hA) ((lists_attach_nil hnew).mp hB) he hf hn

theorem Consistent.trim {g : Graph α} (h : g.Consistent) : g.trim.Consistent where
  coherent := h.coherent.trim
  typed _ _ _ _ _ _ _ hF hne hA hB he hf hn :=
    h.typed hF hne (lists_trim.mp hA).1 (lists_trim.mp hB).1 he hf hn

theorem owned_attach {g : Graph α} (h : g.Owned) {name : String} (m : Module)
    {ends : List (Connection α)} (hown : ∀ e ∈ ends, e.owner = name) :
    (g.attach name m ends).Owned := by
  intro c e he
  rw [connection?_attach] at he
  apply NameMap.mem_keys_insert.mpr
  split at he
  · exact .inr (h he)
  · exact .inl (hown e (List.mem_of_getElem? he))

theorem Owned.linkFresh {g : Graph α} (h : g.Owned) (fresh : String → Bool) :
    (g.linkFresh fresh).Owned := by
  intro c e he
  obtain ⟨e', he', hee⟩ := Table.get_of_freed_eq (freed_linkFresh g fresh) he
  exact Connection.owner_eq_of_unmatch hee ▸ h he'

theorem Owned.trim {g : Graph α} (h : g.Owned) : g.trim.Owned := by
  intro c e he
  have hkeys : g.trim.modules.keys = g.modules.keys := by
    simp [Graph.trim, NameMap.keys, NameMap.mapValues, Function.comp_def]
  rw [hkeys]
  exact h he

theorem owned_empty : Owned (Graph.empty : Graph α) := by
  intro c e he
  simp [Graph.empty, connection?] at he

theorem owned_gather (ends : List (Connection α)) : (gather ends).Owned := by
  rw [gather_eq]
  refine attachAll_keeps (P := Owned) (NameMap.keys_nodup (byOwner ends))
    (fun _ _ => List.not_mem_nil) ?_ owned_empty
  intro x hx g _ h
  exact owned_attach h _ fun e he => (mem_byOwner.mp ⟨x.2, hx, he⟩).2

theorem Owned.juxtapose {g incoming : Graph α} (h : g.Owned) (hi : incoming.Coherent)
    (hshared : g.sharedModule? incoming = none) : (g.juxtapose incoming).Owned := by
  rw [juxtapose_eq]
  refine attachAll_keeps (P := Owned) incoming.modules.keys_nodup (not_mem_keys_of_apart hshared)
    ?_ h
  intro x hx g _ h
  exact owned_attach h _ fun e he => (mem_freedEnds hi hx he).1

theorem Consistent.linkFresh {g : Graph α} (h : g.Consistent) (fresh : String → Bool) :
    (g.linkFresh fresh).Consistent := ⟨h.coherent.linkFresh fresh, h.typed.linkFresh fresh⟩

theorem consistent_ofConnections {ends : List (Connection α)} {g : Graph α}
    (h : Graph.ofConnections ends = .ok g) : g.Consistent := by
  obtain ⟨hconf, rfl⟩ := matchFresh_eq_ok h
  have typed : (gather ends).TypesAgree fun _ _ => True := by
    intro chain A B c d e f _ hne hA hB he hf hn
    exact typesAgree_of_no_conflict hconf (.inl rfl) hne hA hB he hf hn
  exact Consistent.linkFresh ⟨coherent_gather ends, typed⟩ _

theorem Consistent.merge {g incoming g' : Graph α} (hg : g.Consistent) (hi : incoming.Consistent)
    (h : g.merge incoming = .ok g') : g'.Consistent := by
  obtain ⟨hshared, hm⟩ := merge_eq_ok h
  obtain ⟨-, rfl⟩ := matchFresh_eq_ok hm
  have conflicts := mergeConflict?_eq_none hg.coherent hi.coherent
  obtain ⟨hc, -⟩ := juxtapose_coherent hg.coherent hi.coherent hshared
  have typed : (g.juxtapose incoming).TypesAgree fun _ _ => True := by
    refine hg.typesAgree_juxtapose hi (sharedModule?_eq_none.mp hshared) (conflicts.mp ?_)
    unfold Graph.merge at h
    rw [hshared] at h
    cases ht : g.mergeConflict? incoming with
    | none => rfl
    | some t =>
        rw [ht] at h
        cases h
  exact Consistent.linkFresh ⟨hc, typed⟩ _

/-! ### The invariant of kept graphs -/

namespace Kept

variable [Scalar α]

/-- The kept graphs that the operations build from any ends. A merge may fail; what it leaves then
is kept all the same. -/
inductive Reachable : Kept α → Prop
  | empty : Reachable Kept.empty
  | assembled {ends : List (Connection α)} {s : Kept α} (h : ofConnections ends = .ok s) :
      Reachable s
  | added {s s' : Kept α} {name kind : String} {id : ModuleId} (hs : Reachable s)
      (h : s.addModule name kind = .ok (id, s')) : Reachable s'
  | merged {s incoming : Kept α} (hs : Reachable s) (hi : Reachable incoming) :
      Reachable ((merge incoming.graph).apply s).2
  | trimmed {s : Kept α} (hs : Reachable s) : Reachable s.trim

/-- The kept edges are those that would be derived now. -/
structure Current (s : Kept α) : Prop where
  consistent : s.graph.Consistent
  owned : s.graph.Owned
  edges : s.edges = s.graph.edges

theorem current_ofConnections {ends : List (Connection α)} {s : Kept α}
    (h : ofConnections ends = .ok s) : s.Current := by
  obtain ⟨g, hg, rfl⟩ := map_eq_ok h
  have consistent := consistent_ofConnections hg
  obtain ⟨-, rfl⟩ := matchFresh_eq_ok hg
  exact ⟨consistent, (owned_gather ends).linkFresh _, rfl⟩

theorem Current.merge {s incoming : Kept α} (hs : s.Current) (hi : incoming.Current) :
    ((Kept.merge incoming.graph).apply s).2.Current := by
  rw [apply_merge hs.consistent hi.consistent]
  cases hm : s.graph.merge incoming.graph with
  | error f => exact hs
  | ok g =>
      have consistent := hs.consistent.merge hi.consistent hm
      obtain ⟨hshared, hg⟩ := merge_eq_ok hm
      obtain ⟨-, rfl⟩ := matchFresh_eq_ok hg
      exact ⟨consistent, (hs.owned.juxtapose hi.consistent.coherent hshared).linkFresh _, rfl⟩

theorem Reachable.current {s : Kept α} (h : s.Reachable) : s.Current := by
  induction h with
  | empty => exact ⟨sound_empty.consistent, owned_empty, rfl⟩
  | assembled h => exact current_ofConnections h
  | @added s s' name kind id _ h ih =>
      unfold addModule at h
      cases hg : s.graph.addModule name kind with
      | error f =>
          rw [hg] at h
          cases h
      | ok r =>
          rw [hg] at h
          cases h
          obtain ⟨hnew, hr⟩ :=
            addModule_eq (show s.graph.addModule name kind = .ok (r.1, r.2) from hg)
          refine ⟨?_, ?_, ?_⟩
          · rw [hr]
            exact ih.consistent.attach_nil hnew _
          · rw [hr]
            exact owned_attach ih.owned _ (by simp)
          · rw [hr]
            exact ih.edges.trans (edges_attach_nil ih.owned hnew _).symm
  | merged _ _ ihs ihi => exact ihs.merge ihi
  | trimmed _ ih => exact ⟨ih.consistent.trim, ih.owned.trim, ih.edges.trans (edges_trim _).symm⟩

/-- A merge that succeeds keeps what would be derived from the merged graph. -/
theorem Reachable.derive_merge {s incoming : Kept α} (hs : s.Reachable) (hi : incoming.Reachable)
    {g : Graph α} (h : s.graph.merge incoming.graph = .ok g) : (derive g).Reachable := by
  have merged := hs.merged hi
  rwa [apply_merge hs.current.consistent hi.current.consistent, h] at merged

/-! ### Weights and traffic -/

/-- What the kept edges say about the links of the graph. -/
structure EdgesFollowLinks (s : Kept α) : Prop where
  /-- The edges are those that would be derived now. -/
  current : s.edges = s.graph.edges
  /-- One module has an edge to another just where an end that it lists drives the other. -/
  edge_iff : ∀ a b, a ≠ b → ((∃ w, (a, b, w) ∈ s.edges) ↔ ∃ c e p f,
    (∃ chain, s.graph.Lists chain a c) ∧ s.graph.connection? c = some e ∧ e.matched = true ∧
      e.kind.isSource = true ∧ e.partner = some p ∧ s.graph.connection? p = some f ∧ f.owner = b)
  /-- The weight adds up the activities of all such ends, in interface order. -/
  weight : ∀ a b w, (a, b, w) ∈ s.edges →
    sum? ((s.graph.drivers a b).map (·.activity)) = some w
  single : s.edges.Pairwise fun e f => ¬ (e.1 = f.1 ∧ e.2.1 = f.2.1)
  no_loop : ∀ a w, (a, a, w) ∉ s.edges

theorem Current.edges_follow {s : Kept α} (h : s.Current) : s.EdgesFollowLinks where
  current := h.edges
  edge_iff a b hab := by
    have driven : (∃ w, (a, b, w) ∈ s.edges) ↔ ∃ e, e ∈ s.graph.drivers a b := by
      simp only [h.edges, mem_edges, hab, ne_eq, not_false_eq_true, true_and]
      cases s.graph.drivers a b <;> simp [sum?]
    rw [driven]
    constructor
    · rintro ⟨e, he⟩
      obtain ⟨-, c, p, f, rest⟩ := mem_drivers.mp he
      exact ⟨c, e, p, f, rest⟩
    · rintro ⟨c, e, p, f, hc, he, hm, hk, hp, hf, ho⟩
      exact ⟨e, mem_drivers.mpr ⟨ho ▸ h.owned hf, c, p, f, hc, he, hm, hk, hp, hf, ho⟩⟩
  weight a b w hw := (mem_edges.mp (h.edges ▸ hw)).2
  single := h.edges ▸ edges_unique s.graph
  no_loop a w hw := (mem_edges.mp (h.edges ▸ hw)).1 rfl

/-- The activity of all links between two modules, in both directions. -/
def activityBetween (g : Graph Rat) (a b : String) : Rat :=
  ((g.drivers a b ++ g.drivers b a).map (·.activity)).sum

theorem sum?_getD (l : List Rat) : (sum? l).getD 0 = l.sum := by
  have running (l : List Rat) (x : Rat) : l.foldl (· + ·) x = x + l.sum := by
    induction l generalizing x with
    | nil => simp
    | cons y rest ih => simp [ih, add_assoc]
  cases l with
  | nil => rfl
  | cons x rest => exact running rest x

theorem Current.edgeWeight_eq {s : Kept Rat} (h : s.Current) {a b : String} (hab : a ≠ b) :
    s.edgeWeight a b = ((s.graph.drivers a b).map (·.activity)).sum := by
  have found : (s.edges.find? fun e => e.1 == a && e.2.1 == b).map (·.2.2) =
      sum? ((s.graph.drivers a b).map (·.activity)) := by
    have edge (w : Rat) : (a, b, w) ∈ s.edges ↔
        sum? ((s.graph.drivers a b).map (·.activity)) = some w := by
      rw [h.edges, mem_edges]
      exact and_iff_right hab
    cases hf : s.edges.find? fun e => e.1 == a && e.2.1 == b with
    | some e =>
        have hm := List.mem_of_find?_eq_some hf
        have hp := List.find?_some hf
        simp only [Bool.and_eq_true, beq_iff_eq] at hp
        obtain ⟨x, y, w⟩ := e
        obtain ⟨rfl, rfl⟩ := hp
        exact ((edge w).mp hm).symm
    | none =>
        symm
        apply Option.eq_none_iff_forall_ne_some.mpr
        intro w hw
        simpa using List.find?_eq_none.mp hf _ ((edge w).mpr hw)
  rw [edgeWeight, found]
  exact sum?_getD _

theorem Current.traffic_eq {s : Kept Rat} (h : s.Current) {a b : String} (hab : a ≠ b) :
    s.traffic a b = activityBetween s.graph a b := by
  unfold traffic activityBetween
  rw [h.edgeWeight_eq hab, h.edgeWeight_eq hab.symm, List.map_append, List.sum_append]

/-- Of edges without a repetition, those from one module to another weigh what the first of them
weighs. -/
theorem sum_directed {l : List (String × String × Rat)}
    (hl : l.Pairwise fun e f => ¬ (e.1 = f.1 ∧ e.2.1 = f.2.1)) (a b : String) :
    (l.map fun e => if e.1 = a ∧ e.2.1 = b then e.2.2 else 0).sum =
      ((l.find? fun e => e.1 == a && e.2.1 == b).map (·.2.2)).getD 0 := by
  induction l with
  | nil => rfl
  | cons e rest ih =>
      obtain ⟨hne, hrest⟩ := List.pairwise_cons.mp hl
      by_cases he : e.1 = a ∧ e.2.1 = b
      · have others : rest.map (fun f => if f.1 = a ∧ f.2.1 = b then f.2.2 else 0) =
            rest.map fun _ => 0 := by
          apply List.map_congr_left
          intro f hf
          refine if_neg fun same => hne f hf ?_
          exact ⟨he.1.trans same.1.symm, he.2.trans same.2.symm⟩
        simp [he, others]
      · have skip : (e.1 == a && e.2.1 == b) = false := by simpa using he
        simp [he, skip, ih hrest]

theorem Current.traffic_ofGraph {s : Kept Rat} (h : s.Current) {a b : String} (hab : a ≠ b) :
    (TrafficTable.ofGraph s.graph).traffic a b = s.traffic a b := by
  have split : TrafficTable.share a b = fun e =>
      (if e.1 = a ∧ e.2.1 = b then e.2.2 else 0) + if e.1 = b ∧ e.2.1 = a then e.2.2 else 0 := by
    funext e
    unfold TrafficTable.share
    by_cases hfwd : e.1 = a ∧ e.2.1 = b
    · have hback : ¬ (e.1 = b ∧ e.2.1 = a) := fun hb => hab (hfwd.1.symm.trans hb.1)
      rw [if_pos (.inl hfwd), if_pos hfwd, if_neg hback, add_zero]
    · simp [hfwd]
  have hl := h.edges ▸ edges_unique s.graph
  rw [TrafficTable.traffic_ofGraph s.graph hab, ← h.edges, split, List.sum_map_add,
    sum_directed hl, sum_directed hl]
  rfl

end Kept

/-- In every kept graph the edges follow the links. Over exact numbers the traffic of two modules,
read off the edges or off the table that is summed up from them, is the activity of all links
between the two. -/
theorem edges_follow_links :
    (∀ {α : Type} [Scalar α] {s : Kept α}, s.Reachable → s.EdgesFollowLinks) ∧
    ∀ {s : Kept Rat}, s.Reachable → ∀ a b, a ≠ b →
      s.traffic a b = Kept.activityBetween s.graph a b ∧
      (TrafficTable.ofGraph s.graph).traffic a b = Kept.activityBetween s.graph a b ∧
      (TrafficTable.ofGraph s.graph).traffic b a = Kept.activityBetween s.graph a b := by
  refine ⟨fun h => h.current.edges_follow, ?_⟩
  intro s h a b hab
  have table := (h.current.traffic_ofGraph hab).trans (h.current.traffic_eq hab)
  exact ⟨h.current.traffic_eq hab, table, (TrafficTable.traffic_comm _ b a).trans table⟩

theorem derive_assembly_reachable {ends : List (Connection Rat)}
    (h : (gather ends).conflict? (fun _ => true) = none) :
    (Kept.derive (assembly ends)).Reachable := by
  have made : Kept.ofConnections ends = .ok (Kept.derive (assembly ends)) := by
    rw [Kept.ofConnections, Graph.ofConnections, matchFresh_ok h]
    rfl
  exact .assembled made

theorem derive_pipeline_reachable : (Kept.derive pipeline).Reachable := by
  have head := derive_assembly_reachable (by cbv : (gather headEnds).conflict? _ = none)
  have tail := derive_assembly_reachable (by cbv : (gather tailEnds).conflict? _ = none)
  exact head.derive_merge tail merge_pipeline

/-- The channel `x` and the chain lead from `a` to `b`, nothing leads back, and the chain alone
leads from `c` to `a`. -/
theorem pipeline_edges_follow_links :
    (Kept.derive pipeline).EdgesFollowLinks ∧ (Kept.derive pipeline).traffic "b" "a" = 2 ∧
      (TrafficTable.ofGraph pipeline).traffic "a" "c" = 1 := by
  obtain ⟨edges, traffic⟩ := edges_follow_links
  refine ⟨edges derive_pipeline_reachable, ?_, ?_⟩
  · rw [(traffic derive_pipeline_reachable "b" "a" (by decide)).1]
    cbv
  · refine (traffic derive_pipeline_reachable "a" "c" (by decide)).2.1.trans ?_
    cbv

end HardwareLinker.Graph
