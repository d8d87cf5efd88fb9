import Mathlib.Data.List.Nodup
import HardwareLinker.Proofs.Graph.Rings
import HardwareLinker.Proofs.Tree.Channels
import HardwareLinker.Proofs.Tree.Thread

/-!
Chains of a merge tree. When every carrier of a chain has one source end and one sink end of it,
every node below the root threads the chain through its carriers and leaves one end open on either
side. The root closes the thread into a cycle.
-/

namespace HardwareLinker

variable {α : Type}

/-- An open chain end, as an end of a thread. -/
def Port.threadEnd (g : Graph α) (p : Port α) : Thread.End :=
  (p.connection.kind.isSource, (g.owner? p.origin).getD "")

namespace MergeTree

def carriers (t : MergeTree α) (g : Graph α) (chain : String) : List String :=
  t.moduleNames.filter (g.carries chain)

/-- The source or the sink ends of the chain that are open at the top of a tree. -/
def openEnds (t : MergeTree α) (chain : String) (source : Bool) : List (Port α) :=
  t.interface.chains.filter fun p =>
    p.connection.name == chain && p.connection.kind.isSource == source

theorem mem_openEnds {t : MergeTree α} {p : Port α} {chain : String} {source : Bool} :
    p ∈ t.openEnds chain source ↔ p ∈ t.interface.chains ∧ p.connection.name = chain ∧
      p.connection.kind.isSource = source := by
  rw [openEnds, List.mem_filter, Bool.and_eq_true, beq_iff_eq, beq_iff_eq]

/-- The links of the chain inside a tree, from module to module. -/
def chainSteps (t : MergeTree α) (chain : String) : List (String × String) :=
  ((t.placedLinks .chain).filter (·.2.name == chain)).map fun placed =>
    (placed.2.sourceModule, placed.2.sinkModule)

/-- What the top of a tree leaves open of the chain. -/
def openThread (t : MergeTree α) (g : Graph α) (chain : String) : List Thread.End :=
  (t.interface.chains.filter (·.connection.name == chain)).map (Port.threadEnd g)

theorem openThread_filter (t : MergeTree α) (g : Graph α) (chain : String) (source : Bool) :
    (t.openThread g chain).filter (·.1 == source) =
      (t.openEnds chain source).map (Port.threadEnd g) := by
  rw [openThread, List.filter_map, List.filter_filter, openEnds]
  congr 1
  refine List.filter_congr fun p _ => ?_
  rw [Bool.and_comm]
  rfl

theorem openThread_perm (t : MergeTree α) (g : Graph α) (chain : String) :
    ((t.openEnds chain true).map (Port.threadEnd g) ++
      (t.openEnds chain false).map (Port.threadEnd g)).Perm (t.openThread g chain) := by
  rw [← openThread_filter, ← openThread_filter]
  have hnot : (fun e : Thread.End => e.1 == false) = fun e => !(e.1 == true) := by
    funext e
    cases e.1 <;> rfl
  rw [hnot]
  exact List.filter_append_perm _ _

/-- The chain links of a tree thread its carriers along a path, which starts and ends at what the
top leaves open. -/
structure Threaded (t : MergeTree α) (g : Graph α) (chain : String) (path : List String) :
    Prop where
  carriers : path.Perm (t.carriers g chain)
  steps : (t.chainSteps chain).Perm (Thread.steps path)
  ends : (t.openThread g chain).Perm (Thread.ends path)

/-! ### Leaves -/

theorem origins_openEnds_leaf {g : Graph α} (hg : g.Coherent) {name chain : String} {m : Module}
    (hm : g.module? name = some m) (source : Bool) :
    ((MergeTree.module (leafInterface g name)).openEnds chain source).map (·.origin) =
      g.chainEndsOf m chain source := by
  have shown (l : List ConnectionId) (hl : ∀ c ∈ l, ∃ e, g.connection? c = some e) :
      ((l.filterMap (leafPort g name)).filter fun p =>
        p.connection.name == chain && p.connection.kind.isSource == source).map (·.origin) =
      l.filter fun c => (g.connection? c).any fun e =>
        e.name == chain && e.kind.isSource == source := by
    induction l with
    | nil => rfl
    | cons c rest ih =>
        obtain ⟨⟨e, he⟩, hrest⟩ := List.forall_mem_cons.mp hl
        have hport : ∃ p, leafPort g name c = some p ∧ p.origin = c ∧
            p.connection.name = e.name ∧ p.connection.kind = e.kind :=
          ⟨_, by rw [leafPort, he]; rfl, rfl, rfl, rfl⟩
        obtain ⟨p, hp, ho, hn, hk⟩ := hport
        rw [List.filterMap_cons_some hp, List.filter_cons, List.filter_cons, he, Option.any_some,
          hn, hk]
        split
        · rw [List.map_cons, ho, ih hrest]
        · exact ih hrest
  have hfamily := family_leaf g name true
  rw [hm] at hfamily
  have hlisted : ∀ c ∈ m.chains, ∃ e, g.connection? c = some e := by
    intro c hc
    have hlists : g.Lists true name c := ⟨m, NameMap.find?_eq_some.mp hm, hc⟩
    obtain ⟨e, he, -⟩ := hg.listed hlists
    exact ⟨e, he⟩
  show (((leafInterface g name).family true).filter _).map _ = _
  rw [hfamily]
  exact shown m.chains hlisted

theorem threaded_leaf {g : Graph α} (hg : g.Sound) {chain : String} (hc : g.CarriedOnce chain)
    (name : String) :
    (MergeTree.module (leafInterface g name)).Threaded g chain
      ([name].filter (g.carries chain)) := by
  refine ⟨?_, ?_, ?_⟩
  · rw [carriers, moduleNames_module, name_leaf]
  · rw [List.filter_cons]
    split <;> exact .refl _
  · by_cases h : g.carries chain name = true
    · obtain ⟨c, e, ⟨m, hm, hcm⟩, he, hn⟩ := Graph.carries_iff.mp h
      have hfind : g.module? name = some m := NameMap.find?_eq_some.mpr hm
      obtain ⟨hsource, hsink⟩ := hc hfind (Graph.mem_chainNamesOf.mpr ⟨c, hcm, e, he, hn⟩)
      have one {source : Bool} (hone : (g.chainEndsOf m chain source).length = 1) :
          ((MergeTree.module (leafInterface g name)).openEnds chain source).map
            (Port.threadEnd g) = [(source, name)] := by
        rw [← origins_openEnds_leaf hg.coherent hfind, List.length_map] at hone
        obtain ⟨p, hp⟩ := List.length_eq_one_iff.mp hone
        have hmem : p ∈ (MergeTree.module (leafInterface g name)).openEnds chain source :=
          hp ▸ List.mem_cons_self
        obtain ⟨hin, -, hside⟩ := mem_openEnds.mp hmem
        have hin : p ∈ (leafInterface g name).family true := hin
        obtain ⟨hlists, -⟩ := mem_leaf hin
        obtain ⟨f, hf, howner, -⟩ := hg.coherent.listed hlists
        rw [hp, List.map_singleton, Port.threadEnd, Graph.owner?, hf, hside, Option.map_some,
          Option.getD_some, howner]
      rw [List.filter_cons_of_pos h, List.filter_nil]
      refine (openThread_perm _ g chain).symm.trans ?_
      rw [one hsource, one hsink]
      exact .refl _
    · rw [List.filter_cons_of_neg h, List.filter_nil, Thread.ends_nil, openThread,
        List.filter_eq_nil_iff.mpr]
      · exact .refl _
      · intro p hp hname
        have hp : p ∈ (leafInterface g name).family true := hp
        obtain ⟨hlists, e, he, hs⟩ := mem_leaf hp
        refine h (Graph.carries_iff.mpr ⟨p.origin, e, hlists, he, ?_⟩)
        rw [← hs.name]
        exact beq_iff_eq.mp hname

end MergeTree

/-! ### Two siblings -/

namespace Reconcile

open MergeTree

def onChain (chain : String) (a : ChildPort α) : Bool := a.port.connection.name == chain

def threadEnds (g : Graph α) (p : PortPair α) : Thread.End × Thread.End :=
  (p.1.port.threadEnd g, p.2.port.threadEnd g)

/-- What the pairs link of a chain. -/
def linkedEnds (g : Graph α) (chain : String) (ps : List (PortPair α)) :
    List (Thread.End × Thread.End) := (ps.filter fun p => onChain chain p.1).map (threadEnds g)

/-- What some ports leave open of a chain. -/
def portEnds (g : Graph α) (chain : String) (ports : List (ChildPort α)) : List Thread.End :=
  (ports.filter (onChain chain)).map (·.port.threadEnd g)

theorem onChain_iff {chain : String} {a : ChildPort α} :
    onChain chain a = true ↔ a.port.connection.name = chain := beq_iff_eq

theorem linkedEnds_append (g : Graph α) (chain : String) (ps qs : List (PortPair α)) :
    linkedEnds g chain (ps ++ qs) = linkedEnds g chain ps ++ linkedEnds g chain qs := by
  rw [linkedEnds, List.filter_append, List.map_append]
  rfl

theorem portEnds_append (g : Graph α) (chain : String) (l r : List (ChildPort α)) :
    portEnds g chain (l ++ r) = portEnds g chain l ++ portEnds g chain r := by
  rw [portEnds, List.filter_append, List.map_append]
  rfl

theorem portEnds_left (g : Graph α) (chain : String) (ps : List (PortPair α)) :
    portEnds g chain (ps.map Prod.fst) = (linkedEnds g chain ps).map Prod.fst := by
  rw [portEnds, linkedEnds, List.filter_map, List.map_map, List.map_map]
  rfl

theorem step_link (g : Graph α) (p : PortPair α) :
    ((link g.owner? .chain p).sourceModule, (link g.owner? .chain p).sinkModule) =
      Thread.step (threadEnds g p) := by
  unfold Thread.step
  by_cases h : p.1.port.connection.kind.isSource = true
  · rw [link_of_source h, if_pos (show (threadEnds g p).1.1 = true from h)]
    rfl
  · rw [link_of_sink h, if_neg (show ¬ (threadEnds g p).1.1 = true from h)]
    rfl

theorem name_link {g : Graph α} {family : Link.Family} {p : PortPair α} (h : Fits p.1 p.2) :
    (link g.owner? family p).name = p.1.port.connection.name := by
  by_cases hk : p.1.port.connection.kind.isSource = true
  · rw [link_of_source hk]
  · rw [link_of_sink hk, h.name]

theorem Fits.onChain {a b : ChildPort α} (h : Fits a b) (chain : String) :
    onChain chain b = onChain chain a := by
  rw [Reconcile.onChain, Reconcile.onChain, h.name]

/-- Two free chain ends of one name that do not pair are on the same side. -/
theorem isSource_eq_of_not_fits {a b : ChildPort α} (h : ¬ Fits a b)
    (hn : a.port.connection.name = b.port.connection.name)
    (ha : a.port.connection.kind.isChain = true ∧ a.port.connection.matched = false)
    (hb : b.port.connection.kind.isChain = true ∧ b.port.connection.matched = false) :
    a.port.connection.kind.isSource = b.port.connection.kind.isSource := by
  by_contra hne
  exact h ⟨hn, ha.2, hb.2, Connection.Kind.complements_iff.mpr ⟨ha.1.trans hb.1.symm, hne⟩⟩

theorem fit_threadEnds {ps : List (PortPair α)} (h : ∀ p ∈ ps, Fits p.1 p.2) (g : Graph α)
    (chain : String) :
    ∀ l ∈ linkedEnds g chain ps, l.1.1 ≠ l.2.1 := by
  intro l hl
  obtain ⟨p, hp, rfl⟩ := List.mem_map.mp hl
  exact (Connection.Kind.complements_iff.mp (h p (List.mem_filter.mp hp).1).kinds).2

theorem portEnds_right (g : Graph α) (chain : String) {ps : List (PortPair α)}
    (h : ∀ p ∈ ps, Fits p.1 p.2) :
    portEnds g chain (ps.map Prod.snd) = (linkedEnds g chain ps).map Prod.snd := by
  have same : ps.filter (onChain chain ∘ Prod.snd) = ps.filter fun p => onChain chain p.1 :=
    List.filter_congr fun p hp => (h p hp).onChain chain
  rw [portEnds, linkedEnds, List.filter_map, List.map_map, List.map_map, same]
  rfl

theorem portEnds_ring (g : Graph α) (chain : String) {ring : List (PortPair α)}
    (h : ∀ p ∈ ring, Fits p.1 p.2) :
    portEnds g chain (ring.flatMap fun p => [p.1, p.2]) =
      (linkedEnds g chain ring).flatMap fun l => [l.1, l.2] := by
  induction ring with
  | nil => rfl
  | cons p rest ih =>
      obtain ⟨hp, hrest⟩ := List.forall_mem_cons.mp h
      rw [List.flatMap_cons, portEnds_append, ih hrest]
      by_cases hc : onChain chain p.1 = true <;>
        simp [portEnds, linkedEnds, hc, hp.onChain, threadEnds]

end Reconcile

namespace MergeTree

open Reconcile (onChain threadEnds linkedEnds portEnds Fits)

theorem Assembled.chain_port {g : Graph α} (hg : g.Coherent) {root : Bool} {t : MergeTree α}
    (h : Assembled g root t) {p : Port α} (hp : p ∈ t.interface.chains) :
    p.connection.kind.isChain = true ∧ p.connection.matched = false := by
  obtain ⟨⟨A, -, hA⟩, e, he, hs⟩ := h.port_spec (show p ∈ t.interface.family true from hp)
  rw [hs.kind]
  exact ⟨(hg.listed_on_owner hA he).2.1, hs.free⟩

theorem portEnds_perm {g : Graph α} {chain : String} {t : MergeTree α}
    {l : List (ChildPort α)}
    (h : l.Perm (Reconcile.childPorts t.interface.name t.interface.chains)) :
    (portEnds g chain l).Perm (t.openThread g chain) := by
  refine ((h.filter _).map _).trans (List.Perm.of_eq ?_)
  rw [Reconcile.childPorts, List.filter_map, List.map_map]
  rfl

section Node

variable {g : Graph α} {root : Bool} {budget threshold : Nat} {name chain : String}
  {left right : MergeTree α} {o : Reconcile.Outcome α} {channels chains : Paired α}
  {ring : List (PortPair α)} {opened : List (ChildPort α)}
  (passes : Reconcile.Passes g root budget left.interface right.interface o channels chains ring
    opened)

include passes

theorem fits_of_passes : ∀ p ∈ chains.pairs ++ ring, Fits p.1 p.2 := by
  intro p hp
  rcases List.mem_append.mp hp with hp | hp
  · have hc := Reconcile.crossing_of_pairAcross passes.chainPass
    exact (Reconcile.fits_of_pairs (hc.passed p hp)).1
  · cases root with
    | false => rw [(passes.noRing rfl).1] at hp; cases hp
    | true =>
        have hr := Reconcile.closeRing_spec (passes.ringPass rfl)
        exact (Reconcile.fits_of_pairs (hr.passed p hp)).1

theorem openThread_node :
    (node name root threshold o left right).openThread g chain = portEnds g chain opened := by
  show ((o.chains.map (expose name)).filter _).map _ = _
  rw [passes.openChains, List.filter_map, List.map_map, List.filter_map, List.map_map]
  rfl

theorem chainSteps_node :
    (node name root threshold o left right).chainSteps chain =
      (linkedEnds g chain (chains.pairs ++ ring)).map Thread.step ++
        (left.chainSteps chain ++ right.chainSteps chain) := by
  have own : ((o.links.filter (·.family == .chain)).filter (·.name == chain)).map
      (fun l => (l.sourceModule, l.sinkModule)) =
      (linkedEnds g chain (chains.pairs ++ ring)).map Thread.step := by
    have plain : ((o.links.filter (·.family == .chain)).filter (·.name == chain)).map
        (fun l => (l.sourceModule, l.sinkModule)) =
        (((o.links.filter (·.family == .chain)).map Link.plain).filter (·.name == chain)).map
          fun l => (l.sourceModule, l.sinkModule) := by
      rw [List.filter_map, List.map_map]
      rfl
    rw [plain, passes.plain_links .chain, if_neg (by decide), List.filter_map, List.map_map,
      linkedEnds, List.map_map]
    have same : (chains.pairs ++ ring).filter
        ((·.name == chain) ∘ Reconcile.link g.owner? .chain) =
        (chains.pairs ++ ring).filter fun p => onChain chain p.1 := by
      refine List.filter_congr fun p hp => ?_
      rw [Function.comp_apply, Reconcile.name_link (fits_of_passes passes p hp)]
      rfl
    rw [same]
    exact List.map_congr_left fun p _ => Reconcile.step_link g p
  rw [← own, chainSteps, placedLinks_node, List.filter_append, List.filter_append, List.map_append,
    List.map_append, List.filter_map, List.map_map]
  rfl

variable (chain) in
/-- The ends of the chain on the left side are linked across or stay open. -/
theorem lefts_of_passes :
    ((linkedEnds g chain chains.pairs).map Prod.fst ++ portEnds g chain chains.left).Perm
      (left.openThread g chain) := by
  rw [← Reconcile.portEnds_left, ← Reconcile.portEnds_append]
  exact portEnds_perm (Reconcile.crossing_of_pairAcross passes.chainPass).lefts

variable (chain) in
/-- The ends of the chain on the right side are linked across or stay open. -/
theorem rights_of_passes :
    ((linkedEnds g chain chains.pairs).map Prod.snd ++ portEnds g chain chains.right).Perm
      (right.openThread g chain) := by
  have hfits : ∀ p ∈ chains.pairs, Fits p.1 p.2 := fun p hp =>
    fits_of_passes passes p (List.mem_append_left _ hp)
  rw [← Reconcile.portEnds_right g chain hfits, ← Reconcile.portEnds_append]
  exact portEnds_perm (Reconcile.crossing_of_pairAcross passes.chainPass).rights

variable (chain) in
/-- What is open after the links across is linked by the ring or stays open. -/
theorem ring_of_passes :
    ((linkedEnds g chain ring).flatMap (fun l => [l.1, l.2]) ++ portEnds g chain opened).Perm
      (portEnds g chain chains.left ++ portEnds g chain chains.right) := by
  cases root with
  | false =>
      obtain ⟨rfl, rfl⟩ := passes.noRing rfl
      rw [Reconcile.portEnds_append]
      exact .refl _
  | true =>
      have hring := Reconcile.closeRing_spec (passes.ringPass rfl)
      rw [← Reconcile.portEnds_ring g chain fun p hp =>
          fits_of_passes passes p (List.mem_append_right _ hp),
        ← Reconcile.portEnds_append, ← Reconcile.portEnds_append]
      exact (hring.perm.filter _).map _

variable (chain) in
theorem fit_of_passes : ∀ l ∈ linkedEnds g chain (chains.pairs ++ ring), l.1.1 ≠ l.2.1 :=
  Reconcile.fit_threadEnds (fits_of_passes passes) g chain

/-- The pairs across two threaded siblings cross their threads. -/
theorem crossed_of_passes {p q : List String} (hl : left.Threaded g chain p)
    (hr : right.Threaded g chain q) :
    Thread.Crossed p q (linkedEnds g chain chains.pairs) (portEnds g chain chains.left)
      (portEnds g chain chains.right) where
  lefts := (lefts_of_passes chain passes).trans hl.ends
  rights := (rights_of_passes chain passes).trans hr.ends
  fit l hl := fit_of_passes chain passes l (by
    rw [Reconcile.linkedEnds_append]
    exact List.mem_append_left _ hl)

theorem chain_port_of_passes (hg : g.Coherent) (hl : Assembled g false left)
    (hr : Assembled g false right) {a : ChildPort α} (ha : a ∈ chains.left ++ chains.right) :
    a.port.connection.kind.isChain = true ∧ a.port.connection.matched = false :=
  (Reconcile.open_of_pairAcross passes.chainPass ha).elim (hl.chain_port hg)
    (hr.chain_port hg)

variable (chain) in
/-- Ends of the chain that stay open on different sides are on the same side of it, unless the
chain was closed here. -/
theorem apart_of_passes (hg : g.Coherent) (hl : Assembled g false left)
    (hr : Assembled g false right) :
    ∀ x ∈ portEnds g chain chains.left, ∀ y ∈ portEnds g chain chains.right,
      (root = false ∧ linkedEnds g chain chains.pairs ≠ []) ∨ x.1 = y.1 := by
  have hc := Reconcile.crossing_of_pairAcross passes.chainPass
  intro x hx y hy
  obtain ⟨a, ha, rfl⟩ := List.mem_map.mp hx
  obtain ⟨b, hb, rfl⟩ := List.mem_map.mp hy
  obtain ⟨ha, hna⟩ := List.mem_filter.mp ha
  obtain ⟨hb, hnb⟩ := List.mem_filter.mp hb
  rcases hc.unpaired a ha with ⟨before, after, hadded, hskip⟩ | hnone
  · obtain ⟨hroot, hclosed⟩ := Bool.and_eq_true_iff.mp hskip
    obtain ⟨p, hp, hname⟩ := List.any_eq_true.mp hclosed
    have hp : p ∈ chains.pairs.filter fun p => onChain chain p.1 := by
      refine List.mem_filter.mpr ⟨hadded ▸ List.mem_append_left _ hp, ?_⟩
      exact Reconcile.onChain_iff.mpr
        ((beq_iff_eq.mp hname).trans (Reconcile.onChain_iff.mp hna))
    exact .inl ⟨by simpa using hroot, List.ne_nil_of_mem (List.mem_map_of_mem hp)⟩
  · refine .inr (Reconcile.isSource_eq_of_not_fits
      (Reconcile.not_fits_of_pairs (hnone b hb)) ?_ ?_ ?_)
    · exact (Reconcile.onChain_iff.mp hna).trans (Reconcile.onChain_iff.mp hnb).symm
    · exact chain_port_of_passes passes hg hl hr (List.mem_append_left _ ha)
    · exact chain_port_of_passes passes hg hl hr (List.mem_append_right _ hb)

/-- Ends of the chain that a ring leaves open are on the same side of it. -/
theorem ring_apart (hg : g.Coherent) (hl : Assembled g false left) (hr : Assembled g false right)
    (hring : Reconcile.RingClosed (chains.left ++ chains.right) ring opened) :
    (portEnds g chain opened).Pairwise fun x y => x.1 = y.1 := by
  refine List.pairwise_map.mpr ((hring.apart.filter _).imp_of_mem ?_)
  intro a b ha hb hnone
  obtain ⟨ha, hna⟩ := List.mem_filter.mp ha
  obtain ⟨hb, hnb⟩ := List.mem_filter.mp hb
  have hname := (Reconcile.onChain_iff.mp hna).trans (Reconcile.onChain_iff.mp hnb).symm
  exact Reconcile.isSource_eq_of_not_fits (Reconcile.not_fits_of_pairs hnone) hname
    (chain_port_of_passes passes hg hl hr (hring.order.subset ha))
    (chain_port_of_passes passes hg hl hr (hring.order.subset hb))

end Node

/-- Below the root a chain is closed at most once. -/
theorem closed_once {g : Graph α} {budget : Nat} {chain : String} {left right : Interface α}
    {o : Reconcile.Outcome α} {channels chains : Paired α} {ring : List (PortPair α)}
    {opened : List (ChildPort α)}
    (passes : Reconcile.Passes g false budget left right o channels chains ring opened) :
    (linkedEnds g chain chains.pairs).length ≤ 1 := by
  have hc := Reconcile.crossing_of_pairAcross passes.chainPass
  have apart : chains.pairs.Pairwise fun p q =>
      p.1.port.connection.name ≠ q.1.port.connection.name := by
    refine hc.pairwise fun before p hopen q hq hname => ?_
    simp only [Bool.not_false, Bool.true_and, List.nil_append, Reconcile.closedIn,
      List.any_eq_false, beq_iff_eq] at hopen
    exact hopen q hq hname
  rw [linkedEnds, List.length_map]
  by_contra hmany
  have hpair := List.pairwise_iff_getElem.mp (apart.filter fun p => onChain chain p.1)
  have named {i : Nat} (hi : i < (chains.pairs.filter fun p => onChain chain p.1).length) :
      (chains.pairs.filter fun p => onChain chain p.1)[i].1.port.connection.name = chain :=
    Reconcile.onChain_iff.mp (List.mem_filter.mp (List.getElem_mem hi)).2
  exact hpair 0 1 (by omega) (by omega) Nat.zero_lt_one
    ((named (by omega)).trans (named (by omega)).symm)

/-! ### Whole trees -/

/-- Every tree that was not closed as a root threads the chain. -/
theorem Assembled.threaded {g : Graph α} (hg : g.Sound) {chain : String}
    (hc : g.CarriedOnce chain) {root : Bool} {t : MergeTree α} (h : Assembled g root t)
    (hroot : root = false) : ∃ path, t.Threaded g chain path := by
  induction h with
  | module name => exact ⟨_, threaded_leaf hg hc name⟩
  | placeholder name => exact ⟨[], .refl _, .refl _, .refl _⟩
  | @node _ _ _ _ left right _ hl hr ho ihl ihr =>
      subst hroot
      obtain ⟨p, hp⟩ := ihl rfl
      obtain ⟨q, hq⟩ := ihr rfl
      obtain ⟨_, _, _, _, passes⟩ := Reconcile.reconcile_passes ho
      have apart := apart_of_passes chain passes hg.coherent hl hr
      -- One pair of ends joins the threads of the children; without one, a child has no carrier.
      obtain ⟨path, hcarriers, hsteps, hends⟩ := (crossed_of_passes passes hp hq).join
        (closed_once passes) fun x hx y hy => (apart x hx y hy).imp_left And.right
      obtain ⟨rfl, rfl⟩ := passes.noRing rfl
      refine ⟨path, ?_, ?_, ?_⟩
      · rw [carriers, moduleNames_node, List.filter_append]
        exact hcarriers.trans (hp.carriers.append hq.carriers)
      · rw [chainSteps_node passes, List.append_nil]
        exact ((hp.steps.append hq.steps).append_left _).trans hsteps
      · rw [openThread_node passes, Reconcile.portEnds_append]
        exact hends

/-- A tree that was closed as a root turns the thread into a cycle and leaves nothing of the chain
open. -/
theorem Assembled.cycled {g : Graph α} (hg : g.Sound) {chain : String} (hc : g.CarriedOnce chain)
    {t : MergeTree α} (h : Assembled g true t) :
    ∃ path, path.Perm (t.carriers g chain) ∧ (t.chainSteps chain).Perm (Thread.cycle path) ∧
      t.openThread g chain = [] := by
  cases h with
  | @node _ _ _ _ left right _ hl hr ho =>
      obtain ⟨p, hp⟩ := hl.threaded hg hc rfl
      obtain ⟨q, hq⟩ := hr.threaded hg hc rfl
      obtain ⟨_, chains, ring, opened, passes⟩ := Reconcile.reconcile_passes ho
      have hring := Reconcile.closeRing_spec (passes.ringPass rfl)
      have apart := apart_of_passes chain passes hg.coherent hl hr
      have hmost : ∀ x ∈ portEnds g chain chains.left, ∀ y ∈ portEnds g chain chains.right,
          x.1 = y.1 :=
        fun x hx y hy => (apart x hx y hy).resolve_left fun h => Bool.noConfusion h.1
      have hfit : ∀ l ∈ linkedEnds g chain ring, l.1.1 ≠ l.2.1 := fun l hl =>
        fit_of_passes chain passes l (by
          rw [Reconcile.linkedEnds_append]
          exact List.mem_append_right _ hl)
      obtain ⟨path, hcarriers, hsteps, hkept⟩ := (crossed_of_passes passes hp hq).close hmost
        (ring_of_passes chain passes) hfit (ring_apart passes hg.coherent hl hr hring)
      refine ⟨path, ?_, ?_, ?_⟩
      · rw [carriers, moduleNames_node, List.filter_append]
        exact hcarriers.trans (hp.carriers.append hq.carriers)
      · rw [chainSteps_node passes, Reconcile.linkedEnds_append]
        exact ((hp.steps.append hq.steps).append_left _).trans hsteps
      · rw [openThread_node passes, hkept]

/-- The chain links inside a tree are one path through its carriers. The top leaves one sink end
open, of the first module, and one source end, of the last one. -/
structure OnePath (t : MergeTree α) (g : Graph α) (chain : String) (path : List String) : Prop where
  carriers : path.Perm (t.carriers g chain)
  nodup : path.Nodup
  steps : (t.chainSteps chain).Perm (Thread.steps path)
  source : ∃ p, t.openEnds chain true = [p] ∧ g.owner? p.origin = path.getLast?
  sink : ∃ p, t.openEnds chain false = [p] ∧ g.owner? p.origin = path.head?

theorem Assembled.onePath {g : Graph α} (hg : g.Sound) {chain : String} (hc : g.CarriedOnce chain)
    {t : MergeTree α} (h : Assembled g false t) (hd : t.moduleNames.Nodup)
    (hcarried : t.carriers g chain ≠ []) : ∃ path, t.OnePath g chain path := by
  obtain ⟨path, hcarriers, hsteps, hends⟩ := h.threaded hg hc rfl
  have hne : path ≠ [] := fun e => hcarried (List.nil_perm.mp (e ▸ hcarriers))
  obtain ⟨a, b, ha, hb, hpath⟩ := Thread.ends_of_ne_nil hne
  have one {source : Bool} {A : String}
      (hside : (Thread.ends path).filter (·.1 == source) = [(source, A)]) :
      ∃ p, t.openEnds chain source = [p] ∧ g.owner? p.origin = some A := by
    have hopen := hends.filter (·.1 == source)
    rw [openThread_filter, hside, List.perm_singleton, List.map_eq_singleton_iff] at hopen
    obtain ⟨p, hp, hend⟩ := hopen
    refine ⟨p, hp, ?_⟩
    have hmem : p ∈ t.openEnds chain source := hp ▸ List.mem_cons_self
    obtain ⟨B, -, hB⟩ := (h.port_spec (show p ∈ t.interface.family true from
      (mem_openEnds.mp hmem).1)).1.owner hg
    rw [Port.threadEnd, hB, Option.getD_some] at hend
    rw [hB, (Prod.mk.inj hend).2]
  refine ⟨path, hcarriers, hcarriers.nodup_iff.mpr (hd.filter _), hsteps, ?_, ?_⟩
  · rw [hb]
    exact one (by rw [hpath]; rfl)
  · rw [ha]
    exact one (by rw [hpath]; rfl)

end MergeTree

/-- Every node below the root threads a chain through its carriers and leaves one end open on either
side; the root closes the thread into one cycle through all carriers of the graph. -/
theorem Graph.Reachable.chain_threads [Scalar α] {g : Graph α} (h : g.Reachable)
    {hints : MergeTree.Hints α} {threshold : Nat} {t : MergeTree α}
    (hb : MergeTree.build g hints threshold = .ok t) {chain : String} (hc : g.CarriedOnce chain) :
    (∀ n ∈ t.preorder, n ≠ t → n.carriers g chain ≠ [] → ∃ path, n.OnePath g chain path) ∧
    (∃ path, path.Perm (g.moduleNames.filter (g.carries chain)) ∧ path.Nodup ∧
      (t.chainSteps chain).Perm (Thread.cycle path)) ∧
    ((t.placedLinks .chain).filter (·.2.name == chain)).length =
      (g.moduleNames.filter (g.carries chain)).length ∧
    ∀ p ∈ t.residual, p.connection.kind.isChain = true → p.connection.name ≠ chain := by
  have hg := h.sound
  obtain ⟨ha, hperm, hd⟩ := MergeTree.assembled_of_build hb
  obtain ⟨path, hcarriers, hsteps, hopen⟩ := ha.cycled hg hc
  have hpath := hcarriers.trans (hperm.filter (g.carries chain))
  refine ⟨fun n hn hne hcarried => ?_, ⟨path, hpath, ?_, hsteps⟩, ?_, fun p hp hchain hname => ?_⟩
  · have hsub := (ha.of_mem hn).resolve_left hne
    exact hsub.onePath hg hc (hd.sublist (MergeTree.moduleNames_sublist hn)) hcarried
  · exact hpath.nodup_iff.mpr (g.modules.keys_nodup.filter _)
  · rw [← hpath.length_eq, ← Thread.length_cycle path, ← hsteps.length_eq, MergeTree.chainSteps,
      List.length_map]
  · rcases List.mem_append.mp hp with hp | hp
    · obtain ⟨⟨A, -, hA⟩, e, he, hs⟩ :=
        ha.port_spec (show p ∈ t.interface.family false from hp)
      rw [hs.kind, (hg.coherent.listed_on_owner hA he).2.1] at hchain
      cases hchain
    · have hmem : p.threadEnd g ∈ t.openThread g chain :=
        List.mem_map_of_mem (List.mem_filter.mpr ⟨hp, beq_iff_eq.mpr hname⟩)
      rw [hopen] at hmem
      cases hmem

theorem Graph.pipeline_chain_threads :
    ∃ t, MergeTree.build Graph.pipeline .none 4 = .ok t ∧
      ((t.placedLinks .chain).filter (·.2.name == "s")).length = 3 := by
  have hsize : Graph.pipeline.modules.size = 3 := by cbv
  obtain ⟨t, -, -, hbuild⟩ := Graph.pipeline_reachable.sound.build_ok (by omega)
    Graph.pipeline_chainsTyped .none 4
  obtain ⟨-, -, hlength, -⟩ :=
    Graph.pipeline_reachable.chain_threads hbuild Graph.pipeline_carriedOnce
  have hcarriers : Graph.pipeline.moduleNames.filter (Graph.pipeline.carries "s") =
      ["a", "b", "c"] := by cbv
  exact ⟨t, hbuild, by rw [hlength, hcarriers]; rfl⟩

end HardwareLinker
