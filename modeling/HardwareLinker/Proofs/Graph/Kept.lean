import HardwareLinker.Graph.Kept
import HardwareLinker.Proofs.Graph.Conflicts

/-!
Merging in place. Between sound graphs only the two tests before a merge can fail, and they write
nothing; the steps behind them all succeed and leave the graph that merging by value gives. So a
merge that fails leaves the kept graph as it was, although it has no means of taking steps back.
-/

namespace HardwareLinker.Graph

variable {α : Type}

/-! ### Graphs with another table -/

def withTable (g : Graph α) (t : Table α) : Graph α := { g with connections := t }

theorem conflictAt?_withTable {g : Graph α} {t : Table α} (h : t.freed = Table.freed g.connections)
    (p : ConnectionId × ConnectionId) : (g.withTable t).conflictAt? p = g.conflictAt? p := by
  have shown (t : Table α) : (g.withTable t).conflictAt? p =
      (do (← t.freed[p.1.slot]?).conflict? (← t.freed[p.2.slot]?)) := by
    simp only [conflictAt?, connection?, withTable, Table.freed_getElem?]
    cases t[p.1.slot]? <;> cases t[p.2.slot]? <;> rfl
  rw [shown t, h]
  exact (shown g.connections).symm

theorem name_withTable {g : Graph α} {t : Table α} (h : t.freed = Table.freed g.connections)
    (c : ConnectionId) :
    ((g.withTable t).connection? c).map (·.name) = (g.connection? c).map (·.name) := by
  have shown (t : Table α) :
      ((g.withTable t).connection? c).map (·.name) = t.freed[c.slot]?.map (·.name) := by
    rw [Table.freed_getElem?, Option.map_map]
    rfl
  rw [shown t, h]
  exact (shown g.connections).symm

theorem freshChains_withTable {g : Graph α} {t : Table α} (h : t.freed = Table.freed g.connections)
    (fresh : String → Bool) : (g.withTable t).freshChains fresh = g.freshChains fresh := by
  have names (m : Module) : (g.withTable t).chainNamesOf m = g.chainNamesOf m := by
    simp only [chainNamesOf, name_withTable h]
  simp only [freshChains, names]
  rfl

theorem chainEnds_withTable {g : Graph α} {t : Table α} (h : t.freed = Table.freed g.connections)
    (chain : String) : (g.withTable t).chainEnds chain = g.chainEnds chain := by
  have named (g : Graph α) (c : ConnectionId) : ((g.connection? c).any fun e => e.name == chain) =
      ((g.connection? c).map (·.name)).any (· == chain) := by
    cases g.connection? c <;> rfl
  simp only [chainEnds, named, name_withTable h]
  rfl

namespace Kept

/-! ### Steps one by one -/

variable {β γ : Type}

theorem apply_bind_ok {u : Update α β} {f : β → Update α γ} {s s' : Kept α} {x : β}
    (h : u.apply s = (.ok x, s')) : (u >>= f).apply s = (f x).apply s' := by
  have h : (u s : Except Fault β × Kept α) = (.ok x, s') := h
  show ExceptT.bindCont f (u s).1 (u s).2 = _
  rw [h]
  rfl

theorem apply_bind_error {u : Update α β} {f : β → Update α γ} {s : Kept α} {e : Fault}
    (h : (u.apply s).1 = .error e) : ((u >>= f).apply s).1 = .error e := by
  change (ExceptT.bindCont f (u s).1 (u s).2).1 = _
  rw [show (u s).1 = .error e from h]
  rfl

theorem apply_get (s : Kept α) : (get : Update α (Kept α)).apply s = (.ok s, s) := rfl

/-- The kept graph with another table. -/
def onTable (s : Kept α) (t : Table α) : Kept α := { s with graph := s.graph.withTable t }

/-- The table shows the ends of the kept graph, linked in some way. -/
def Shows (s : Kept α) (t : Table α) : Prop := t.freed = Table.freed s.graph.connections

/-- However the ends of the kept graph are linked, the steps fail with the conflict `found`, and
without one they change nothing but links. -/
structure Links (s : Kept α) (u : Update α Unit) (found : Option Connection.TypeConflict)
    (link : Table α → Table α) : Prop where
  freed : ∀ t, (link t).freed = t.freed
  fails : ∀ {t c}, s.Shows t → found = some c → (u.apply (s.onTable t)).1 = .error (.typeMismatch c)
  links : ∀ {t}, s.Shows t → found = none → u.apply (s.onTable t) = (.ok (), s.onTable (link t))

theorem Links.bind {s : Kept α} {u v : Update α Unit}
    {found found' : Option Connection.TypeConflict}
    {link link' : Table α → Table α} (hu : s.Links u found link) (hv : s.Links v found' link') :
    s.Links (u >>= fun _ => v) (found.or found') (link' ∘ link) where
  freed t := (hv.freed (link t)).trans (hu.freed t)
  fails := by
    intro t c ht h
    cases found with
    | some first =>
        cases h
        exact apply_bind_error (hu.fails ht rfl)
    | none =>
        rw [apply_bind_ok (hu.links ht rfl)]
        exact hv.fails ((hu.freed t).trans ht) h
  links := by
    intro t ht h
    obtain ⟨h, h'⟩ := Option.or_eq_none_iff.mp h
    rw [apply_bind_ok (hu.links ht h)]
    exact hv.links ((hu.freed t).trans ht) h'

theorem Links.forM {s : Kept α} {step : β → Update α Unit}
    {found : β → Option Connection.TypeConflict} {link : Table α → β → Table α} {l : List β}
    (h : ∀ x ∈ l, s.Links (step x) (found x) fun t => link t x) :
    s.Links (l.forM step) (l.findSome? found) fun t => l.foldl link t := by
  induction l with
  | nil => exact ⟨fun _ => rfl, nofun, fun _ _ => rfl⟩
  | cons x rest ih =>
      obtain ⟨hx, hrest⟩ := List.forall_mem_cons.mp h
      have first : (x :: rest).findSome? found = (found x).or (rest.findSome? found) := by
        rw [List.findSome?_cons]
        cases found x <;> rfl
      rw [first]
      exact hx.bind (ih hrest)

theorem Links.congr {s : Kept α} {u v : Update α Unit} {found : Option Connection.TypeConflict}
    {link : Table α → Table α} (hv : s.Links v found link)
    (h : ∀ {t}, s.Shows t → u.apply (s.onTable t) = v.apply (s.onTable t)) :
    s.Links u found link where
  freed := hv.freed
  fails ht hc := (congrArg Prod.fst (h ht)).trans (hv.fails ht hc)
  links ht hc := (h ht).trans (hv.links ht hc)

theorem links_modifyTable (s : Kept α) {link : Table α → Table α}
    (freed : ∀ t, (link t).freed = t.freed) : s.Links (modifyTable link) none link :=
  ⟨freed, nofun, fun _ _ => rfl⟩

theorem links_compareTypes (s : Kept α) (p : ConnectionId × ConnectionId) :
    s.Links (compareTypes p) (s.graph.conflictAt? p) id where
  freed _ := rfl
  fails ht h := by
    rw [compareTypes, apply_bind_ok (apply_get _)]
    simp only [onTable, conflictAt?_withTable ht, h]
    rfl
  links ht h := by
    rw [compareTypes, apply_bind_ok (apply_get _)]
    simp only [onTable, conflictAt?_withTable ht, h]
    rfl

theorem links_pairUp (s : Kept α) (p : ConnectionId × ConnectionId) :
    s.Links (pairUp p) (s.graph.conflictAt? p) fun t => t.linkGreedily [p] := by
  have steps := (links_compareTypes s p).bind
    (links_modifyTable s fun t => Table.freed_linkGreedily t [p])
  rwa [Option.or_none] at steps

theorem links_thread (s : Kept α) (chain : String) :
    s.Links (thread chain)
      (((orderedPairs (s.graph.chainEnds chain)).flatMap crossPairs).findSome? s.graph.conflictAt?)
      fun t => t.threadChain (s.graph.chainEnds chain) := by
  have compared : s.Links (((orderedPairs (s.graph.chainEnds chain)).flatMap crossPairs).forM
      compareTypes) _ _ := .forM fun p _ => links_compareTypes s p
  have steps := compared.bind (links_modifyTable s fun t =>
    Table.freed_threadChain t (s.graph.chainEnds chain))
  rw [Option.or_none] at steps
  have alone : (fun t : Table α => List.foldl (fun t p => id t) t
      ((orderedPairs (s.graph.chainEnds chain)).flatMap crossPairs)) = id := by
    funext t
    exact List.foldl_fixed' (fun _ => rfl) _
  rw [alone] at steps
  refine steps.congr fun ht => ?_
  rw [thread, apply_bind_ok (apply_get _)]
  simp only [onTable, chainEnds_withTable ht]

/-- Everything that matching does before it derives the edges. -/
theorem links_matchFresh (s : Kept α) (fresh : String → Bool) :
    s.Links (do
        (s.graph.channelCandidates fresh).forM pairUp
        ((← get).graph.freshChains fresh).forM thread) (s.graph.conflict? fresh)
      fun t => (s.graph.freshChains fresh).foldl
        (fun t chain => t.threadChain (s.graph.chainEnds chain))
        (t.linkGreedily (s.graph.channelCandidates fresh)) := by
  have paired : s.Links ((s.graph.channelCandidates fresh).forM pairUp) _ _ :=
    .forM fun p _ => links_pairUp s p
  have threaded : s.Links ((s.graph.freshChains fresh).forM thread) _ _ :=
    .forM fun chain _ => links_thread s chain
  unfold Graph.conflict?
  rw [Option.orElse_eq_orElse, Option.orElse_eq_or]
  refine paired.bind (threaded.congr fun ht => ?_)
  rw [apply_bind_ok (apply_get _)]
  simp only [onTable, freshChains_withTable ht]

theorem apply_insertModules (s : Kept α) (incoming : Graph α) :
    (insertModules incoming).apply s =
      (.ok (), { s with graph := s.graph.juxtapose incoming }) := by
  unfold insertModules juxtapose
  generalize incoming.modules.entries = l
  induction l generalizing s with
  | nil => rfl
  | cons x rest ih => exact ih { s with graph := s.graph.attach x.1 x.2 (incoming.freedEnds x.2) }

variable [Scalar α]

theorem matchFresh_eq (fresh : String → Bool) : (matchFresh fresh : Update α Unit) = (do
    let s ← get
    (do
      (s.graph.channelCandidates fresh).forM pairUp
      ((← get).graph.freshChains fresh).forM thread)
    modify fun s => { s with edges := s.graph.edges }) := by
  simp only [matchFresh, bind_assoc]

/-- Matching in place meets the conflict that is looked for first when matching by value. -/
theorem apply_matchFresh_conflict {s : Kept α} {fresh : String → Bool} {t : Connection.TypeConflict}
    (h : s.graph.conflict? fresh = some t) :
    ((matchFresh fresh).apply s).1 = .error (.typeMismatch t) := by
  rw [matchFresh_eq, apply_bind_ok (apply_get _)]
  exact apply_bind_error ((links_matchFresh s fresh).fails rfl h)

theorem apply_matchFresh_ok {s : Kept α} {fresh : String → Bool}
    (h : s.graph.conflict? fresh = none) :
    (matchFresh fresh).apply s =
      (.ok (), { s with
        graph := s.graph.linkFresh fresh
        edges := (s.graph.linkFresh fresh).edges }) := by
  have linked := (links_matchFresh s fresh).links rfl h
  rw [matchFresh_eq, apply_bind_ok (apply_get _)]
  exact apply_bind_ok linked

/-- Where types agree, matching in place succeeds and links what matching by value links. -/
theorem apply_matchFresh {s : Kept α} (typed : s.graph.TypesAgree fun _ _ => True)
    (fresh : String → Bool) :
    (matchFresh fresh).apply s =
      (.ok (), { s with
        graph := s.graph.linkFresh fresh
        edges := (s.graph.linkFresh fresh).edges }) :=
  apply_matchFresh_ok (typed.conflict?_eq_none fresh)

theorem apply_merge_shared {s : Kept α} {incoming : Graph α} {name : String}
    (h : s.graph.sharedModule? incoming = some name) :
    (merge incoming).apply s = (.error (.duplicateModule name), s) := by
  rw [merge, apply_bind_ok (apply_get _), h]
  rfl

theorem apply_merge_conflict {s : Kept α} {incoming : Graph α} {t : Connection.TypeConflict}
    (hs : s.graph.sharedModule? incoming = none) (ht : s.graph.mergeConflict? incoming = some t) :
    (merge incoming).apply s = (.error (.typeMismatch t), s) := by
  rw [merge, apply_bind_ok (apply_get _), hs, ht]
  rfl

theorem apply_merge_ok {s : Kept α} {incoming : Graph α}
    (hs : s.graph.sharedModule? incoming = none) (ht : s.graph.mergeConflict? incoming = none)
    (typed : (s.graph.juxtapose incoming).TypesAgree fun _ _ => True) :
    (merge incoming).apply s =
      (.ok (), derive ((s.graph.juxtapose incoming).linkFresh incoming.modules.contains)) := by
  rw [merge, apply_bind_ok (apply_get _), hs, ht]
  show (insertModules incoming >>= fun _ => _ : Update α Unit).apply s = _
  rw [apply_bind_ok (apply_insertModules s incoming), apply_bind_ok (apply_matchFresh typed _)]
  rfl

/-- Merging in place does what merging by value does; where it fails, it has written nothing. -/
theorem apply_merge {s : Kept α} {incoming : Graph α} (hg : s.graph.Consistent)
    (hi : incoming.Consistent) :
    (merge incoming).apply s = match s.graph.merge incoming with
      | .ok g => (.ok (), derive g)
      | .error f => (.error f, s) := by
  cases hs : s.graph.sharedModule? incoming with
  | some name =>
      rw [apply_merge_shared hs, Graph.merge, hs]
  | none =>
      cases ht : s.graph.mergeConflict? incoming with
      | some t => rw [apply_merge_conflict hs ht, Graph.merge, hs, ht]
      | none =>
          have typed := hg.typesAgree_juxtapose hi (sharedModule?_eq_none.mp hs)
            ((mergeConflict?_eq_none hg.coherent hi.coherent).mp ht)
          rw [apply_merge_ok hs ht typed, merge_ok hs ht (typed.conflict?_eq_none _)]

end Kept

/-- A merge fails just where two modules share a name or, if none do, two ends clash. A merge that
fails leaves the kept graph untouched, and once the modules are inserted it cannot fail. -/
theorem Reachable.merge_all_or_nothing [Scalar α] {s : Kept α} {incoming : Graph α}
    (hg : s.graph.Reachable) (hi : incoming.Reachable) :
    ((∃ f, ((Kept.merge incoming).apply s).1 = .error f) ↔
      (∃ name, s.graph.SharedName incoming name) ∨ ∃ old new, s.graph.Clash incoming old new) ∧
    (∀ name, ((Kept.merge incoming).apply s).1 = .error (.duplicateModule name) ↔
      s.graph.SharedName incoming name ∧
        ∀ other, s.graph.SharedName incoming other → name ≤ other) ∧
    ((∃ t, ((Kept.merge incoming).apply s).1 = .error (.typeMismatch t)) ↔
      (¬ ∃ name, s.graph.SharedName incoming name) ∧
        ∃ old new, s.graph.Clash incoming old new) ∧
    (∀ t, ((Kept.merge incoming).apply s).1 = .error (.typeMismatch t) →
      ∃ old new, s.graph.Clash incoming old new ∧ old.conflict? new = some t) ∧
    (∀ f, ((Kept.merge incoming).apply s).1 = .error f → ((Kept.merge incoming).apply s).2 = s) ∧
    ((¬ ∃ name, s.graph.SharedName incoming name) →
      (¬ ∃ old new, s.graph.Clash incoming old new) →
      ((Kept.matchFresh incoming.modules.contains).apply
        { s with graph := s.graph.juxtapose incoming }).1 = .ok ()) := by
  have conflicts := mergeConflict?_eq_none hg.sound.coherent hi.sound.coherent
  cases hshared : s.graph.sharedModule? incoming with
  | some name =>
      have least := sharedModule?_eq_some.mp hshared
      have shared : ∃ name, s.graph.SharedName incoming name := ⟨name, least.1⟩
      rw [Kept.apply_merge_shared hshared]
      refine ⟨iff_of_true ⟨_, rfl⟩ (.inl shared), fun other => ⟨fun h => ?_, fun h => ?_⟩,
        iff_of_false nofun fun h => h.1 shared, nofun, fun _ _ => rfl, fun h => absurd shared h⟩
      · cases h
        exact least
      · rw [Option.some.inj (hshared.symm.trans (sharedModule?_eq_some.mpr h))]
  | none =>
      have apart := sharedModule?_eq_none.mp hshared
      have unnamed : ∀ name, ¬ (s.graph.SharedName incoming name ∧
          ∀ other, s.graph.SharedName incoming other → name ≤ other) :=
        fun name h => apart ⟨name, h.1⟩
      cases hconf : s.graph.mergeConflict? incoming with
      | some t =>
          obtain ⟨old, new, hclash, hreport⟩ :=
            mergeConflict?_eq_some hg.sound.coherent hi.sound.coherent hconf
          have clash : ∃ old new, s.graph.Clash incoming old new := ⟨old, new, hclash⟩
          rw [Kept.apply_merge_conflict hshared hconf]
          refine ⟨iff_of_true ⟨_, rfl⟩ (.inr clash), fun name => iff_of_false nofun (unnamed name),
            iff_of_true ⟨t, rfl⟩ ⟨apart, clash⟩, fun t h => ?_, fun _ _ => rfl,
            fun _ h => absurd clash h⟩
          cases h
          exact ⟨old, new, hclash, hreport⟩
      | none =>
          have typed := typesAgree_juxtapose hg.sound hi.sound apart (conflicts.mp hconf)
          rw [Kept.apply_merge_ok hshared hconf typed]
          refine ⟨iff_of_false nofun (not_or.mpr ⟨apart, conflicts.mp hconf⟩),
            fun name => iff_of_false nofun (unnamed name),
            iff_of_false nofun fun h => conflicts.mp hconf h.2, nofun, nofun, fun _ _ => ?_⟩
          rw [Kept.apply_matchFresh typed]

/-! ### A module that does not fit the pipeline -/

/-- The channel `y` of the pipeline with another type. -/
def misfitEnds : List (Connection Rat) :=
  [plainEnd .recv "q" "z", { plainEnd .recv "y" "d" with type := "Bit#(64)" }]

/-- The open end `q` alone would fit, but the whole merge is refused. -/
theorem pipeline_merge_refused :
    (∃ t, ((Kept.merge (assembly misfitEnds)).apply (Kept.derive pipeline)).1 =
      .error (.typeMismatch t)) ∧
    ((Kept.merge (assembly misfitEnds)).apply (Kept.derive pipeline)).2 =
      Kept.derive pipeline := by
  have misfit : Reachable (assembly misfitEnds) :=
    .assembled (by simp [misfitEnds, plainEnd]) (matchFresh_ok (by cbv))
  have apart := sharedModule?_eq_none.mp
    (by cbv : pipeline.sharedModule? (assembly misfitEnds) = none)
  obtain ⟨t, ht⟩ := Option.isSome_iff_exists.mp
    (by cbv : (pipeline.mergeConflict? (assembly misfitEnds)).isSome = true)
  obtain ⟨old, new, clash, -⟩ :=
    mergeConflict?_eq_some pipeline_reachable.sound.coherent misfit.sound.coherent ht
  obtain ⟨-, -, mismatch, -, untouched, -⟩ :=
    Reachable.merge_all_or_nothing (s := Kept.derive pipeline) pipeline_reachable misfit
  obtain ⟨c, hc⟩ := mismatch.mpr ⟨apart, old, new, clash⟩
  exact ⟨⟨c, hc⟩, untouched _ hc⟩

end HardwareLinker.Graph
