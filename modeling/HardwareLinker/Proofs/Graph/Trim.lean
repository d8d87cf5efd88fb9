import HardwareLinker.Proofs.Graph.Additive

/-!
Trimming and what comes after it. Trimming takes the idle ends off the interfaces and touches
nothing that is read off the table, so links, edges and open ends stay. An end on no interface is
never a candidate again: whatever is merged, added or trimmed later leaves it in the table as it is,
and where the trimmed graph is merged into another one, the end is left behind.
-/

namespace HardwareLinker

/-- Every report is appended, and the count grows by the errors among them. -/
theorem Diagnostic.Sink.emitAll_eq (s : Sink) (ds : List Diagnostic) :
    s.emitAll ds = ⟨s.reports ++ ds, s.errors + ds.countP (·.severity = .error)⟩ := by
  induction ds generalizing s with
  | nil => simp [emitAll]
  | cons d rest ih =>
      have first : s.emitAll (d :: rest) = (s.emit d).emitAll rest := rfl
      rw [first, ih, emit, List.append_assoc, List.singleton_append, List.countP_cons]
      congr 1
      by_cases h : d.severity = .error
      · simp only [h, if_true, decide_true]
        omega
      · simp [h]

namespace Module

/-- A module without the ends that a test tells. -/
def without (m : Module) (drop : ConnectionId → Bool) : Module :=
  { m with channels := m.channels.filter (!drop ·), chains := m.chains.filter (!drop ·) }

theorem ends_without (m : Module) (drop : ConnectionId → Bool) :
    (m.without drop).ends = m.ends.filter (!drop ·) := (List.filter_append ..).symm

theorem without_without (m : Module) (drop : ConnectionId → Bool) :
    (m.without drop).without drop = m.without drop := by
  simp only [without, List.filter_filter, Bool.and_self]

theorem without_congr {m : Module} {drop drop' : ConnectionId → Bool}
    (h : ∀ c ∈ m.ends, drop c = drop' c) : m.without drop = m.without drop' := by
  have channels : m.channels.filter (!drop ·) = m.channels.filter (!drop' ·) :=
    List.filter_congr fun c hc => by rw [h c (List.mem_append_left _ hc)]
  have chains : m.chains.filter (!drop ·) = m.chains.filter (!drop' ·) :=
    List.filter_congr fun c hc => by rw [h c (List.mem_append_right _ hc)]
  rw [without, without, channels, chains]

end Module

namespace Graph

variable {α : Type}

/-! ### Interfaces without idle ends -/

theorem modules_trim (g : Graph α) :
    g.trim.modules = g.modules.mapValues fun _ m => m.without g.isIdle := rfl

theorem isIdle_trim (g : Graph α) : g.trim.isIdle = g.isIdle := rfl

theorem isIdle_iff {g : Graph α} {c : ConnectionId} :
    g.isIdle c = true ↔
      ∃ e, g.connection? c = some e ∧ e.optional = true ∧ e.matched = false := by
  simp [isIdle, Option.any_eq_true]

theorem idleEnds_eq (g : Graph α) : g.idleEnds = g.handles.filter g.isIdle := rfl

theorem mem_idleEnds {g : Graph α} {c : ConnectionId} :
    c ∈ g.idleEnds ↔ (∃ chain A, g.Lists chain A c) ∧ g.isIdle c = true := by
  rw [idleEnds, List.mem_filter, mem_flatMap_ends]

theorem decide_mem_idleEnds {g : Graph α} {c : ConnectionId} (hc : c ∈ g.handles) :
    decide (c ∈ g.idleEnds) = g.isIdle c := by
  rw [idleEnds_eq, Bool.eq_iff_iff, decide_eq_true_iff, List.mem_filter, and_iff_right hc]

theorem handles_trim (g : Graph α) : g.trim.handles = g.handles.filter (!g.isIdle ·) := by
  simp only [handles, modules_trim, NameMap.values, NameMap.mapValues, List.map_map,
    List.flatMap_map, List.filter_flatMap, Function.comp_apply, Module.ends_without]

theorem idleEnds_trim (g : Graph α) : g.trim.idleEnds = [] := by
  rw [idleEnds_eq, handles_trim, isIdle_trim, List.filter_filter]
  simp

/-- A required end is never idle. -/
theorem unmatched_trim (g : Graph α) : g.trim.unmatched = g.unmatched := by
  have busy (c : ConnectionId) :
      ((g.connection? c).any (fun e => !e.optional && !e.matched) && !g.isIdle c) =
        (g.connection? c).any fun e => !e.optional && !e.matched := by
    unfold isIdle
    cases g.connection? c with
    | none => rfl
    | some e => cases ho : e.optional <;> cases hm : e.matched <;> simp [ho, hm]
  have same : g.trim.unmatched = g.trim.handles.filter fun c =>
      (g.connection? c).any fun e => !e.optional && !e.matched := rfl
  rw [same, handles_trim, List.filter_filter]
  simp only [busy]
  rfl

theorem trim_trim (g : Graph α) : g.trim.trim = g.trim := by
  have modules : g.trim.trim.modules = g.trim.modules := by
    apply NameMap.ext_entries
    simp only [modules_trim, isIdle_trim, NameMap.mapValues, List.map_map, Function.comp_def,
      Module.without_without]
  exact congrArg (fun modules => (⟨modules, g.connections⟩ : Graph α)) modules

/-- Every module loses the idle ends, and these only. -/
theorem entries_trim (g : Graph α) :
    g.trim.modules.entries =
      g.modules.entries.map fun x => (x.1, x.2.without (· ∈ g.idleEnds)) := by
  have listed {x : String × Module} (hx : x ∈ g.modules.entries) :
      x.2.without g.isIdle = x.2.without (· ∈ g.idleEnds) := by
    apply Module.without_congr
    intro c hc
    have member : c ∈ g.handles :=
      List.mem_flatMap.mpr ⟨x.2, NameMap.mem_values.mpr ⟨x.1, hx⟩, hc⟩
    exact (decide_mem_idleEnds member).symm
  rw [modules_trim]
  exact List.map_congr_left fun x hx => congrArg (Prod.mk x.1) (listed hx)

/-- One report for each idle end, in their order. -/
theorem forall₂_trimReports (g : Graph α) :
    List.Forall₂ (fun c d => ∃ e, g.connection? c = some e ∧ d = trimReport e) g.idleEnds
      g.trimReports := by
  have found : ∀ c ∈ g.idleEnds, ∃ e, g.connection? c = some e := by
    intro c hc
    obtain ⟨e, he, -⟩ := isIdle_iff.mp (mem_idleEnds.mp hc).2
    exact ⟨e, he⟩
  unfold trimReports
  generalize g.idleEnds = l at found
  induction l with
  | nil => exact .nil
  | cons c rest ih =>
      obtain ⟨⟨e, he⟩, hrest⟩ := List.forall_mem_cons.mp found
      rw [List.filterMap_cons, he]
      exact .cons ⟨e, he, rfl⟩ (ih hrest)

theorem severity_of_mem_trimReports {g : Graph α} {d : Diagnostic} (h : d ∈ g.trimReports) :
    d.severity = .warning := by
  obtain ⟨c, -, hd⟩ := List.mem_filterMap.mp h
  obtain ⟨e, -, rfl⟩ := Option.map_eq_some_iff.mp hd
  rfl

/-- Warnings leave the count of errors alone. -/
theorem emitAll_trimReports (g : Graph α) (sink : Diagnostic.Sink) :
    sink.emitAll g.trimReports = { sink with reports := sink.reports ++ g.trimReports } := by
  have none : g.trimReports.countP (·.severity = .error) = 0 := by
    refine List.countP_eq_zero.mpr fun d hd => ?_
    rw [severity_of_mem_trimReports hd]
    decide
  rw [Diagnostic.Sink.emitAll_eq, none, Nat.add_zero]

/-- Among mutual links an idle end is nobody's partner. -/
theorem Sound.partner?_ne_idle {g : Graph α} (hg : g.Sound) {c : ConnectionId}
    (hc : g.isIdle c = true) (d : ConnectionId) : g.partner? d ≠ some c := by
  obtain ⟨e, he, -, hm⟩ := isIdle_iff.mp hc
  intro hp
  obtain ⟨x, hx, hp⟩ := partner?_eq_some.mp hp
  exact hg.linked.partner_ne he hm hx hp

/-! ### Partners that linking makes -/

namespace Table

/-- Every partner in the second table is one of the given ends, or is a partner of the same end in
the first table. -/
def Draws (ends : ConnectionId → Prop) (t t' : Table α) : Prop :=
  ∀ d p : ConnectionId, t'[d.slot]?.bind (·.partner) = some p →
    ends p ∨ t[d.slot]?.bind (·.partner) = some p

variable {ends : ConnectionId → Prop} {t u v : Table α}

theorem Draws.refl (t : Table α) : Draws ends t t := fun _ _ h => .inr h

theorem Draws.trans (h : Draws ends t u) (h' : Draws ends u v) : Draws ends t v :=
  fun d p hp => (h' d p hp).elim .inl (h d p)

theorem Draws.foldl {β : Type} {step : Table α → β → Table α} {l : List β}
    (h : ∀ x ∈ l, ∀ u, Draws ends u (step u x)) (t : Table α) : Draws ends t (l.foldl step t) :=
  List.foldlRecOn l step (motive := Draws ends t) (.refl t)
    fun u hu x hx => hu.trans (h x hx u)

theorem draws_link (t : Table α) {a b : ConnectionId} (ha : ends a) (hb : ends b) :
    Draws ends t (t.link a b) := by
  have linked {x : Option (Connection α)} {q p : ConnectionId}
      (h : (x.map (·.linkTo q)).bind (·.partner) = some p) : q = p := by
    cases x with
    | none => cases h
    | some e => exact Option.some.inj h
  intro d p hp
  rw [getElem?_link] at hp
  split at hp
  · exact .inl (linked hp ▸ ha)
  · split at hp
    · exact .inl (linked hp ▸ hb)
    · exact .inr hp

theorem draws_unlink (t : Table α) (c : ConnectionId) : Draws ends t (t.unlink c) := by
  intro d p hp
  rw [getElem?_unlink] at hp
  split at hp
  · cases h : t[d.slot]? with
    | none => simp [h] at hp
    | some e => simp [h, Connection.unmatch] at hp
  · exact .inr hp

theorem draws_linkGreedily (t : Table α) {pairs : List (ConnectionId × ConnectionId)}
    (h : ∀ p ∈ pairs, ends p.1 ∧ ends p.2) : Draws ends t (t.linkGreedily pairs) := by
  refine Draws.foldl (fun p hp u => ?_) t
  dsimp only
  split
  · exact draws_link u (h p hp).1 (h p hp).2
  · exact .refl u

theorem draws_linkFirst (t : Table α) {a : ConnectionId} {candidates : List ConnectionId}
    (ha : ends a) (h : ∀ b ∈ candidates, ends b) : Draws ends t (t.linkFirst a candidates) := by
  unfold linkFirst
  split
  · next b hb => exact draws_link t ha (h b (List.mem_of_find?_eq_some hb))
  · exact .refl t

theorem draws_threadChain (t : Table α) {members : List (List ConnectionId)}
    (h : ∀ c ∈ members.flatten, ends c) : Draws ends t (t.threadChain members) := by
  rw [threadChain_eq]
  have freed : Draws ends t (members.flatten.foldl unlink t) :=
    .foldl (fun c _ u => draws_unlink u c) t
  refine freed.trans (.foldl (fun carrier hm u => .foldl (fun c hc u => ?_) u) _)
  split
  · have member : c ∈ members.flatten :=
      List.mem_flatten.mpr ⟨_, List.fst_mem_of_mem_zipIdx hm, hc⟩
    exact draws_linkFirst u (h c member) fun b hb => h b (mem_of_mem_ringFrom hb)
  · exact .refl u

end Table

/-- Only listed ends are linked. -/
theorem draws_linkFresh (g : Graph α) (fresh : String → Bool) :
    Table.Draws (fun p => ∃ chain A, g.Lists chain A p) g.connections
      (g.linkFresh fresh).connections := by
  refine (Table.draws_linkGreedily _ fun p hp => ?_).trans
    (.foldl (fun chain _ u => Table.draws_threadChain u fun c hc => ?_) _)
  · obtain ⟨A, B, -, ha, hb⟩ := of_mem_channelCandidates hp
    exact ⟨⟨false, A, ha⟩, ⟨false, B, hb⟩⟩
  · obtain ⟨⟨A, hA⟩, -⟩ := mem_flatten_chainEnds.mp hc
    exact ⟨true, A, hA⟩

/-! ### Ends on no interface -/

/-- The end stands in the table as given and on no interface, and only given ends name it as their
partner. -/
structure Aside (g : Graph α) (c : ConnectionId) (e : Connection α)
    (suitor : ConnectionId → Prop) : Prop where
  entry : g.connection? c = some e
  unlisted : ∀ chain A, ¬ g.Lists chain A c
  partner : ∀ d, g.partner? d = some c → suitor d

section

variable {g : Graph α} {c : ConnectionId} {e : Connection α} {suitor : ConnectionId → Prop}

/-- New ends come free and get handles that no earlier end has. -/
theorem Aside.attach (h : g.Aside c e suitor) {name : String} (hnew : name ∉ g.modules.keys)
    (m : Module) {ends : List (Connection α)} (free : ∀ x ∈ ends, x.partner = none) :
    (g.attach name m ends).Aside c e suitor where
  entry := extends_attach.kept h.entry
  unlisted chain A hc := by
    cases (lists_attach hnew).mp hc with
    | inl old => exact h.unlisted chain A old
    | inr new =>
        obtain ⟨-, first, -, -⟩ := mem_listFamily.mp new.2
        exact Nat.not_lt.mpr first (Array.getElem?_eq_some_iff.mp h.entry).1
  partner d hd := by
    obtain ⟨x, hx, hp⟩ := partner?_eq_some.mp hd
    rw [connection?_attach] at hx
    split at hx
    · exact h.partner d (partner?_eq_some.mpr ⟨x, hx, hp⟩)
    · cases (free x (List.mem_of_getElem? hx)).symm.trans hp

theorem Aside.juxtapose {incoming : Graph α} (h : g.Aside c e suitor)
    (hshared : g.sharedModule? incoming = none) : (g.juxtapose incoming).Aside c e suitor := by
  rw [juxtapose_eq]
  refine attachAll_keeps (P := fun g => g.Aside c e suitor) incoming.modules.keys_nodup
    (not_mem_keys_of_apart hshared) (fun x _ g hnew h => h.attach hnew _ fun y hy => ?_) h
  obtain ⟨d, -, hd⟩ := List.mem_filterMap.mp hy
  obtain ⟨z, -, rfl⟩ := Option.map_eq_some_iff.mp hd
  rfl

theorem Aside.linkFresh (h : g.Aside c e suitor) (fresh : String → Bool) :
    (g.linkFresh fresh).Aside c e suitor where
  entry := by
    have channels : (Table.linkGreedily g.connections (g.channelCandidates fresh))[c.slot]? =
        some e := by
      refine (Table.getElem?_linkGreedily fun p hp => ?_).trans h.entry
      obtain ⟨A, B, -, ha, hb⟩ := of_mem_channelCandidates hp
      exact ⟨fun hc => h.unlisted false A (hc ▸ ha), fun hc => h.unlisted false B (hc ▸ hb)⟩
    refine List.foldlRecOn _ _ (motive := fun u : Table α => u[c.slot]? = some e) channels
      fun u hu chain _ => (Table.getElem?_threadChain fun hc => ?_).trans hu
    obtain ⟨⟨A, hA⟩, -⟩ := mem_flatten_chainEnds.mp hc
    exact h.unlisted true A hA
  unlisted chain A hc := h.unlisted chain A (lists_linkFresh.mp hc)
  partner d hd := by
    cases draws_linkFresh g fresh d c hd with
    | inl listed =>
        obtain ⟨chain, A, hc⟩ := listed
        exact absurd hc (h.unlisted chain A)
    | inr before => exact h.partner d before

theorem Aside.merge {incoming g' : Graph α} (h : g.Aside c e suitor)
    (hm : g.merge incoming = .ok g') : g'.Aside c e suitor := by
  obtain ⟨hshared, hm⟩ := merge_eq_ok hm
  obtain ⟨-, rfl⟩ := matchFresh_eq_ok hm
  exact (h.juxtapose hshared).linkFresh _

theorem Aside.trim (h : g.Aside c e suitor) : g.trim.Aside c e suitor :=
  ⟨h.entry, fun chain A hc => h.unlisted chain A (lists_trim.mp hc).1, h.partner⟩

theorem Aside.modifyModule (h : g.Aside c e suitor) (name : String) {f : Module → Module}
    (hf : Module.Descriptive f) : (g.modifyModule name f).Aside c e suitor where
  entry := h.entry
  unlisted chain A hc := by
    refine h.unlisted chain A ((lists_mapValues fun key m chain => ?_).mp hc)
    split
    · exact hf.family m chain
    · rfl
  partner := h.partner

/-- An idle end that is trimmed stands aside. -/
theorem aside_trim (hc : g.isIdle c = true) (he : g.connection? c = some e) :
    g.trim.Aside c e fun d => g.partner? d = some c where
  entry := he
  unlisted _ _ listed := Bool.noConfusion ((lists_trim.mp listed).2.symm.trans hc)
  partner _ hd := hd

end

namespace Kept

variable [Scalar α]

/-- What becomes of a kept graph by further operations. A merge may fail. -/
inductive Later (s : Kept α) : Kept α → Prop
  | now : Later s s
  | added {s' s'' : Kept α} {name kind : String} {id : ModuleId} (h : Later s s')
      (hadd : s'.addModule name kind = .ok (id, s'')) : Later s s''
  | described {s' : Kept α} {f : Module → Module} (h : Later s s') (name : String)
      (hf : Module.Descriptive f) : Later s (s'.modifyModule name f)
  | merged {s' incoming : Kept α} (h : Later s s') (hi : incoming.Made) :
      Later s ((merge incoming.graph).apply s').2
  | trimmed {s' : Kept α} (h : Later s s') : Later s s'.trim

theorem Later.made {s s' : Kept α} (h : s.Later s') (hs : s.Made) : s'.Made := by
  induction h with
  | now => exact hs
  | added _ hadd ih => exact ih.added hadd
  | described _ name hf ih => exact ih.described name hf
  | merged _ hi ih => exact ih.merged hi
  | trimmed _ ih => exact ih.trimmed

/-- An end that stands aside stays so. -/
theorem Later.aside {s s' : Kept α} (h : s.Later s') (hs : s.Made) {c : ConnectionId}
    {e : Connection α} {suitor : ConnectionId → Prop} (hc : s.graph.Aside c e suitor) :
    s'.graph.Aside c e suitor := by
  induction h with
  | now => exact hc
  | added _ hadd ih =>
      obtain ⟨⟨id, g⟩, hg, hadd⟩ := map_eq_ok hadd
      cases hadd
      obtain ⟨hnew, rfl⟩ := addModule_eq hg
      exact ih.attach hnew _ (by simp)
  | described _ name hf ih => exact ih.modifyModule name hf
  | @merged s' incoming before hi ih =>
      rw [apply_merge (before.made hs).orderly.consistent hi.orderly.consistent]
      cases hm : s'.graph.merge incoming.graph with
      | error f => exact ih
      | ok g => exact ih.merge hm
  | trimmed _ ih => exact ih.trim

/-! ### What trimming does -/

/-- Trimming is exact, is told by warnings, and changes nothing but interfaces, now and later. -/
structure Trims (s : Kept α) : Prop where
  /-- The ends that are taken off are the listed optional ones without a partner. -/
  removed : ∀ c, c ∈ s.graph.idleEnds ↔ (∃ chain A, s.graph.Lists chain A c) ∧
    ∃ e, s.graph.connection? c = some e ∧ e.optional = true ∧ e.matched = false
  once : s.graph.idleEnds.Nodup
  /-- Every module keeps its place, its description and the rest of its ends, in their order. -/
  modules : s.trim.graph.modules.entries =
    s.graph.modules.entries.map fun x => (x.1, x.2.without (· ∈ s.graph.idleEnds))
  reports : List.Forall₂ (fun c d => ∃ e, s.graph.connection? c = some e ∧ d = trimReport e)
    s.graph.idleEnds s.graph.trimReports
  warnings : ∀ d ∈ s.graph.trimReports, d.severity = .warning
  sink : ∀ sink : Diagnostic.Sink, sink.emitAll s.graph.trimReports =
    { sink with reports := sink.reports ++ s.graph.trimReports }
  /-- The table of ends stays as it is, match states included. -/
  connections : s.trim.graph.connections = s.graph.connections
  /-- Edges and their weights, as they are kept and as they would be derived. -/
  edges : s.trim.edges = s.edges ∧ s.trim.graph.edges = s.graph.edges
  unmatched : s.trim.graph.unmatched = s.graph.unmatched
  /-- The mark for open ends, as it is kept and as it would be derived. -/
  mark : s.trim.hasUnmatched = s.hasUnmatched ∧ s.trim.graph.hasUnmatched = s.graph.hasUnmatched
  again : s.trim.graph.idleEnds = [] ∧ s.trim.graph.trimReports = [] ∧ s.trim.trim = s.trim
  /-- Where links are mutual, no end names a trimmed one as its partner. -/
  unsought : s.graph.Sound → ∀ c ∈ s.graph.idleEnds, ∀ d, s.graph.partner? d ≠ some c
  /-- Later a trimmed end is as it was, without a partner, listed nowhere, neither open nor idle,
  and no end gains it as a partner. -/
  later : ∀ s', s.trim.Later s' → ∀ c ∈ s.graph.idleEnds,
    (∃ e, s.graph.connection? c = some e ∧ s'.graph.connection? c = some e ∧ e.matched = false) ∧
    (∀ chain A, ¬ s'.graph.Lists chain A c) ∧ c ∉ s'.graph.unmatched ∧ c ∉ s'.graph.idleEnds ∧
    ∀ d, s'.graph.partner? d = some c → s.graph.partner? d = some c
  /-- Merged into another graph, the trimmed one brings the listed ends that were not taken off. -/
  incoming : ∀ t t' : Kept α, t.Made → (merge s.trim.graph).apply t = (.ok (), t') →
    (Table.freed t'.graph.connections).toList = (Table.freed t.graph.connections).toList ++
      (s.graph.handles.filter (· ∉ s.graph.idleEnds)).filterMap s.graph.shown

/-- A merged graph holds the ends that it had and those that the incoming modules list. -/
theorem Made.toList_freed_merge {t s t' : Kept α} (ht : t.Made) (hs : s.Made)
    (h : (merge s.graph).apply t = (.ok (), t')) :
    (Table.freed t'.graph.connections).toList = (Table.freed t.graph.connections).toList ++
      s.graph.handles.filterMap s.graph.shown := by
  obtain ⟨hm, -⟩ := apply_merge_eq_ok ht.orderly.consistent hs.orderly.consistent h
  obtain ⟨-, hm⟩ := merge_eq_ok hm
  obtain ⟨-, linked⟩ := matchFresh_eq_ok hm
  rw [linked, freed_linkFresh]
  exact toList_freed_juxtapose t.graph s.graph

/-- **Trimming is exact and harmless** in every kept graph, whatever built it. -/
theorem Made.trims {s : Kept α} (hs : s.Made) : s.Trims where
  removed _ := mem_idleEnds.trans (and_congr_right fun _ => isIdle_iff)
  once := hs.orderly.consistent.coherent.ends_nodup.filter _
  modules := entries_trim s.graph
  reports := forall₂_trimReports s.graph
  warnings _ := severity_of_mem_trimReports
  sink := emitAll_trimReports s.graph
  connections := rfl
  edges := ⟨rfl, edges_trim s.graph⟩
  unmatched := unmatched_trim s.graph
  mark := ⟨rfl, congrArg (!List.isEmpty ·) (unmatched_trim s.graph)⟩
  again := by
    have none := idleEnds_trim s.graph
    refine ⟨none, ?_, congrArg (fun g => { s with graph := g }) (trim_trim s.graph)⟩
    rw [trim, trimReports, none, List.filterMap_nil]
  unsought sound c hc := sound.partner?_ne_idle (mem_idleEnds.mp hc).2
  later s' h c hc := by
    obtain ⟨-, idle⟩ := mem_idleEnds.mp hc
    obtain ⟨e, he, -, free⟩ := isIdle_iff.mp idle
    have aside := h.aside hs.trimmed (aside_trim idle he)
    have unlisted : c ∉ s'.graph.handles := fun listed => by
      obtain ⟨chain, A, listed⟩ := mem_flatMap_ends.mp listed
      exact aside.unlisted chain A listed
    exact ⟨⟨e, he, aside.entry, free⟩, aside.unlisted,
      fun h => unlisted (List.mem_of_mem_filter h), fun h => unlisted (List.mem_of_mem_filter h),
      aside.partner⟩
  incoming t t' ht h := by
    have rest : s.graph.trim.handles = s.graph.handles.filter (· ∉ s.graph.idleEnds) := by
      rw [handles_trim]
      exact List.filter_congr fun c hc => by rw [← decide_mem_idleEnds hc, decide_not]
    rw [← rest]
    exact ht.toList_freed_merge hs.trimmed h

/-! ### A partner that comes too late -/

/-- The tail of the pipeline with an optional end, which has no partner. -/
def optionalTail : Kept Rat :=
  derive (assembly (tailEnds ++ [{ plainEnd .recv "z" "c" with optional := true }]))

/-- A module that would feed the optional end. -/
def lateSender : Kept Rat := derive (assembly [plainEnd .send "z" "d"])

theorem optionalTail_made : optionalTail.Made := (derive_assembly_reachable (by cbv)).made

theorem lateSender_made : lateSender.Made := (derive_assembly_reachable (by cbv)).made

/-- The end of the tail is trimmed, so the sender that is merged later stays open. -/
theorem optionalTail_trims : optionalTail.Trims ∧ optionalTail.graph.idleEnds = [⟨3⟩] ∧
    ∃ s', (merge lateSender.graph).apply optionalTail.trim = (.ok (), s') ∧
      (∃ e, s'.graph.connection? ⟨3⟩ = some e ∧ e.matched = false) ∧
      s'.graph.unmatched = [⟨0⟩, ⟨4⟩] := by
  have trims := optionalTail_made.trims
  have idle : optionalTail.graph.idleEnds = [⟨3⟩] := by cbv
  have ok : (optionalTail.trim.graph.merge lateSender.graph).toOption.map (·.unmatched) =
      some [⟨0⟩, ⟨4⟩] := by cbv
  obtain ⟨g, hg, unmatched⟩ := Option.map_eq_some_iff.mp ok
  have merged : (merge lateSender.graph).apply optionalTail.trim = (.ok (), derive g) := by
    rw [apply_merge optionalTail_made.trimmed.orderly.consistent
      lateSender_made.orderly.consistent, toOption_eq_some.mp hg]
  have later : optionalTail.trim.Later (derive g) := by
    have after := Later.now.merged (s := optionalTail.trim) lateSender_made
    rwa [merged] at after
  obtain ⟨⟨e, -, entry, free⟩, -⟩ := trims.later _ later ⟨3⟩ (idle ▸ List.mem_singleton.mpr rfl)
  exact ⟨trims, idle, derive g, merged, ⟨e, entry, free⟩, unmatched⟩

end Kept
end Graph
end HardwareLinker
