import Mathlib.Data.List.Perm.Subperm
import HardwareLinker.Proofs.Graph.Conflicts
import HardwareLinker.Proofs.Tree.Balance

/-!
What stays open at the root. The open channels of a tree are the unmatched ones of its graph, and of
every chain the root leaves as many ends open as the graph leaves unmatched. They need not be the
same ends: a cut can make an optional end take the place of a required one.
-/

namespace HardwareLinker

variable {α : Type}

namespace Graph

/-! ### Graphs without required open ends -/

theorem matched_of_required {g : Graph α} (h : g.unmatched = []) {chain : Bool} {A : String}
    {c : ConnectionId} {e : Connection α} (hc : g.Lists chain A c) (he : g.connection? c = some e)
    (ho : e.optional = false) : e.matched = true := by
  have hmem : c ∈ g.modules.values.flatMap Module.ends := mem_flatMap_ends.mpr ⟨chain, A, hc⟩
  have := List.filter_eq_nil_iff.mp h c hmem
  simpa [he, ho] using this

/-- Every listed end has a partner. -/
def AllMatched (g : Graph α) : Prop :=
  ∀ ⦃chain : Bool⦄ ⦃A : String⦄ ⦃c : ConnectionId⦄ ⦃e : Connection α⦄,
    g.Lists chain A c → g.connection? c = some e → e.matched = true

/-- Trimming leaves no optional end open, so a trimmed graph without required open ends has none. -/
theorem allMatched_trim {g : Graph α} (h : g.trim.unmatched = []) : g.trim.AllMatched := by
  intro chain A c e hc he
  cases ho : e.optional with
  | false => exact matched_of_required h hc he ho
  | true =>
      have he : g.connection? c = some e := he
      have hidle := (lists_trim.mp hc).2
      rw [isIdle, he] at hidle
      simpa [ho] using hidle

theorem AllMatched.none_free {g : Graph α} (h : g.AllMatched) (chain : String) (source : Bool) :
    (g.chainSide chain source).filter (!g.isMatched ·) = [] := by
  refine List.filter_eq_nil_iff.mpr fun c hc => ?_
  obtain ⟨⟨A, hA⟩, e, he, -⟩ := mem_chainSide.mp hc
  rw [isMatched, he, Option.any_some, h hA he]
  exact Bool.false_ne_true

/-- Where all required ends are matched, the unmatched ends of a chain are idle. -/
theorem filter_isIdle {g : Graph α} (h : g.unmatched = []) (chain : String) (source : Bool) :
    (g.chainSide chain source).filter (!g.isMatched ·) =
      (g.chainSide chain source).filter g.isIdle := by
  refine List.filter_congr fun c hc => ?_
  obtain ⟨⟨A, hA⟩, e, he, -⟩ := mem_chainSide.mp hc
  rw [isMatched, isIdle, he, Option.any_some, Option.any_some]
  cases ho : e.optional with
  | false => rw [matched_of_required h hA he ho]; rfl
  | true => rfl

end Graph

namespace MergeTree

/-! ### Open ends at the root -/

/-- A channel that is open at the root has no partner in the graph. -/
theorem Assembled.unmatched_of_open_channel {g : Graph α} (hg : g.Sound) {root : Bool}
    {t : MergeTree α} (h : Assembled g root t) (hperm : t.moduleNames.Perm g.moduleNames)
    (hd : t.moduleNames.Nodup) {p : Port α} (hp : p ∈ t.interface.channels) :
    ∃ A e, g.Lists false A p.origin ∧ g.connection? p.origin = some e ∧ e.matched = false := by
  have hopen : p.origin ∈ (t.interface.family false).map (·.origin) := List.mem_map_of_mem hp
  obtain ⟨⟨A, -, hA⟩, alone⟩ := (h.open_channel hg hd).mp hopen
  obtain ⟨e, he, -, hk⟩ := hg.coherent.listed hA
  refine ⟨A, e, hA, he, Bool.eq_false_iff.mpr fun hm => ?_⟩
  obtain ⟨q, hq⟩ := Option.isSome_iff_exists.mp ((hg.linked.matched_iff he).mp hm)
  obtain ⟨⟨chain, A', B, hA', hB, -⟩, -⟩ := hg.partners he hq
  have hchain : false = chain := (hg.coherent.owner_unique hA hA').2
  obtain ⟨m, hm, hqm⟩ := hB
  refine alone q (Graph.partner?_eq_some.mpr ⟨e, he, hq⟩) ⟨B, ?_, m, hm, hchain ▸ hqm⟩
  exact hperm.symm.subset (NameMap.mem_keys_of_mem hm)

/-- A port is optional if the end that it stands for is. -/
theorem Assembled.port_optional {g : Graph α} {root : Bool} {t : MergeTree α}
    (h : Assembled g root t) {chain : Bool} {p : Port α} (hp : p ∈ t.interface.family chain)
    {e : Connection α} (he : g.connection? p.origin = some e) :
    p.connection.optional = e.optional := by
  induction h generalizing p with
  | module name =>
      rw [interface, family_leaf] at hp
      obtain ⟨c, -, hc⟩ := List.mem_filterMap.mp hp
      obtain ⟨e', he', rfl⟩ := Option.map_eq_some_iff.mp hc
      cases he.symm.trans he'
      rfl
  | placeholder name => cases chain <;> cases hp
  | node hl hr ho ihl ihr =>
      obtain ⟨_, _, _, _, passes⟩ := Reconcile.reconcile_passes ho
      rw [family_node] at hp
      obtain ⟨q, hq, rfl⟩ := List.mem_map.mp hp
      change q.connection.optional = e.optional
      rcases List.mem_append.mp ((passes.sublist chain).subset hq) with hm | hm
      · exact ihl hm he
      · exact ihr hm he

/-- A root leaves as many ends of a chain open as the graph leaves unmatched. -/
theorem Assembled.length_openEnds_root {g : Graph α} (hg : g.Reachable) {t : MergeTree α}
    (h : Assembled g true t) (hperm : t.moduleNames.Perm g.moduleNames) (chain : String)
    (source : Bool) :
    (t.openEnds chain source).length =
      ((g.chainSide chain source).filter (!g.isMatched ·)).length := by
  obtain ⟨-, sources, sinks⟩ := h.chainClosed hg.sound.coherent hperm chain
  have matched := hg.length_matched chain source
  have split := List.length_eq_length_filter_add g.isMatched (l := g.chainSide chain source)
  cases source <;> omega

/-- A tree closes whatever the graph links, if the graph links all it lists. -/
theorem residual_eq_nil [Scalar α] {g : Graph α} (hg : g.Reachable) (hm : g.AllMatched)
    {hints : Hints α} {threshold : Nat} {t : MergeTree α}
    (hb : build g hints threshold = .ok t) : t.residual = [] := by
  obtain ⟨ha, hperm, hd⟩ := assembled_of_build hb
  have channels : t.interface.channels = [] := by
    refine List.eq_nil_iff_forall_not_mem.mpr fun p hp => ?_
    obtain ⟨A, e, hA, he, hfree⟩ := ha.unmatched_of_open_channel hg.sound hperm hd hp
    rw [hm hA he] at hfree
    cases hfree
  have chains : t.interface.chains = [] := by
    refine List.eq_nil_iff_forall_not_mem.mpr fun p hp => ?_
    have hopen : p ∈ t.openEnds p.connection.name p.connection.kind.isSource :=
      mem_openEnds.mpr ⟨hp, rfl, rfl⟩
    have hlength := ha.length_openEnds_root hg hperm p.connection.name
      p.connection.kind.isSource
    rw [hm.none_free] at hlength
    rw [List.eq_nil_of_length_eq_zero hlength] at hopen
    cases hopen
  rw [residual, Interface.ports, channels, chains, List.append_nil]

end MergeTree

/-! ### A chain with a contested sink -/

namespace Graph

/-- Two modules feed one chain into a third one; the second of them need not. -/
def contestedEnds : List (Connection Rat) :=
  [plainEnd .chainSource "s" "a", { plainEnd .chainSource "s" "b" with optional := true },
    plainEnd .chainSink "s" "c"]

def contested : Graph Rat := assembly contestedEnds

/-- Splits the first of three modules off, so that the other two meet before it joins them. -/
def splitHead : MergeTree.Hints Rat :=
  ⟨fun members _ => some (if members.length = 3 then [0, 1, 1] else [0, 1]), fun _ _ => 0⟩

theorem contested_reachable : contested.Reachable :=
  .assembled (by simp [contestedEnds, plainEnd]) (matchFresh_ok (by cbv))

theorem contested_unmatched : contested.unmatched = [] := by cbv

/-- `b` is linked to `c` below the root, and `a` stays open. -/
theorem contested_build : ∃ t, MergeTree.build contested splitHead 4 = .ok t ∧
    t.residual.map (fun p => (p.origin, p.connection.optional)) = [(⟨0⟩, false)] := by
  have h : (MergeTree.build contested splitHead 4).toOption.map
      (fun t => t.residual.map fun p => (p.origin, p.connection.optional)) =
        some [(⟨0⟩, false)] := by cbv
  obtain ⟨t, ht, hopen⟩ := Option.map_eq_some_iff.mp h
  exact ⟨t, toOption_eq_some.mp ht, hopen⟩

end Graph

open MergeTree in
/-- Graph and tree link the same share of every chain: the graph holds as many links of it as its
scarcer side has ends, the tree likewise, and what stays open at the root is the surplus. So a
trimmed graph without required open ends leaves nothing open. -/
theorem Graph.Reachable.chain_balance [Scalar α] {g : Graph α} (h : g.Reachable) :
    (∀ chain : String,
      (∃ pairs : List (ConnectionId × ConnectionId), pairs.Nodup ∧
        (∀ s k, (s, k) ∈ pairs ↔ g.ChainPair chain s k) ∧
        pairs.length = min (g.chainSide chain true).length (g.chainSide chain false).length) ∧
      ∀ (hints : Hints α) (threshold : Nat) (t : MergeTree α), build g hints threshold = .ok t →
        t.ChainClosed chain (g.chainSide chain true).length (g.chainSide chain false).length) ∧
    (g.trim.unmatched = [] → ∀ (hints : Hints α) (threshold : Nat) (t : MergeTree α),
      build g.trim hints threshold = .ok t → t.residual = []) := by
  refine ⟨fun chain => ⟨h.chainPairs chain, fun hints threshold t hb => ?_⟩,
    fun hu hints threshold t hb => ?_⟩
  · obtain ⟨ha, hperm, -⟩ := assembled_of_build hb
    exact ha.chainClosed h.sound.coherent hperm chain
  · exact residual_eq_nil h.trimmed (Graph.allMatched_trim hu) hb

/-- The sink of the contested chain takes one link and leaves one source end over; once the optional
one is trimmed, nothing is left over. -/
theorem Graph.contested_chain_balance : contested.Reachable ∧
    (∃ t, MergeTree.build contested splitHead 4 = .ok t ∧ t.ChainClosed "s" 2 1) ∧
    ∃ t, MergeTree.build contested.trim splitHead 4 = .ok t ∧ t.residual = [] := by
  obtain ⟨chains, trimmed⟩ := contested_reachable.chain_balance
  obtain ⟨t, hb, -⟩ := contested_build
  have closed := (chains "s").2 splitHead 4 t hb
  have sources : (contested.chainSide "s" true).length = 2 := by cbv
  have sinks : (contested.chainSide "s" false).length = 1 := by cbv
  rw [sources, sinks] at closed
  have built : (MergeTree.build contested.trim splitHead 4).toOption.isSome = true := by cbv
  obtain ⟨u, hu⟩ := Option.isSome_iff_exists.mp built
  have hu := toOption_eq_some.mp hu
  exact ⟨contested_reachable, ⟨t, hb, closed⟩, u, hu, trimmed (by cbv) splitHead 4 u hu⟩

/-! ### Required ends left open -/

open MergeTree in
/-- If every idle end on one side of a chain is open at the root, and no more ends than these, then
the open ends are the idle ones. -/
theorem MergeTree.Assembled.idle_of_open {g : Graph α} (hg : g.Sound) {root : Bool}
    {t : MergeTree α} (h : Assembled g root t) {chain : String} {source : Bool}
    (hcount : (t.openEnds chain source).length =
      ((g.chainSide chain source).filter g.isIdle).length)
    (hall : ∀ c ∈ (g.chainSide chain source).filter g.isIdle, c ∈ t.residual.map (·.origin))
    {p : Port α} (hp : p ∈ t.openEnds chain source) : g.isIdle p.origin = true := by
  have shown : (g.chainSide chain source).filter g.isIdle ⊆
      (t.openEnds chain source).map (·.origin) := by
    intro c hc
    obtain ⟨⟨A, hA⟩, e, he, hn, hk⟩ := Graph.mem_chainSide.mp (List.mem_filter.mp hc).1
    obtain ⟨q, hq, rfl⟩ := List.mem_map.mp (hall c hc)
    rcases List.mem_append.mp hq with hq | hq
    · obtain ⟨⟨B, -, hB⟩, -⟩ := h.port_spec (show q ∈ t.interface.family false from hq)
      exact Bool.noConfusion (hg.coherent.owner_unique hA hB).2
    · obtain ⟨-, f, hf, hs⟩ := h.port_spec (show q ∈ t.interface.family true from hq)
      cases he.symm.trans hf
      exact List.mem_map_of_mem (mem_openEnds.mpr ⟨hq, hs.name.trans hn, by rw [hs.kind, hk]⟩)
  have unique : ((g.chainSide chain source).filter g.isIdle).Nodup :=
    (hg.coherent.chainSide_nodup chain source).filter _
  have same := (List.Nodup.subperm unique shown).perm_of_length_le
    (by rw [List.length_map, hcount])
  exact (List.mem_filter.mp (same.symm.subset (List.mem_map_of_mem hp))).2

/-- In a graph that matches all required ends, a root leaves only optional channels open, and of
every chain as many ends as there are idle ones. A required end is among them only where an idle end
of its side was linked in its place. -/
theorem Graph.Reachable.residual_required [Scalar α] {g : Graph α} (h : g.Reachable)
    (hu : g.unmatched = []) {hints : MergeTree.Hints α} {threshold : Nat} {t : MergeTree α}
    (hb : MergeTree.build g hints threshold = .ok t) :
    (∀ p ∈ t.residual, p.connection.kind.isChain = false → p.connection.optional = true) ∧
    (∀ chain source, (t.openEnds chain source).length =
      ((g.chainSide chain source).filter g.isIdle).length) ∧
    ∀ p ∈ t.residual, p.connection.optional = false →
      ∃ c ∈ (g.chainSide p.connection.name p.connection.kind.isSource).filter g.isIdle,
        c ∉ t.residual.map (·.origin) := by
  have hg := h.sound
  obtain ⟨ha, hperm, hd⟩ := MergeTree.assembled_of_build hb
  have channel {p : Port α} (hp : p ∈ t.interface.channels) : p.connection.optional = true := by
    obtain ⟨A, e, hA, he, hfree⟩ := ha.unmatched_of_open_channel hg hperm hd hp
    rw [ha.port_optional (show p ∈ t.interface.family false from hp) he]
    by_contra ho
    rw [matched_of_required hu hA he (Bool.eq_false_iff.mpr ho)] at hfree
    cases hfree
  have count (chain : String) (source : Bool) : (t.openEnds chain source).length =
      ((g.chainSide chain source).filter g.isIdle).length := by
    rw [ha.length_openEnds_root h hperm, filter_isIdle hu]
  refine ⟨fun p hp hk => ?_, count, fun p hp ho => ?_⟩
  · rcases List.mem_append.mp hp with hp | hp
    · exact channel hp
    · rw [(ha.chain_port hg.coherent hp).1] at hk
      cases hk
  · rcases List.mem_append.mp hp with hp | hp
    · rw [channel hp] at ho
      cases ho
    · -- As many ends are open as there are idle ones, so one that is not idle displaces one.
      by_contra hall
      have hopen := MergeTree.mem_openEnds.mpr ⟨hp, rfl, rfl⟩
      have hidle := ha.idle_of_open hg (count _ _) (fun c hc => by
        by_contra hc'
        exact hall ⟨c, hc, hc'⟩) hopen
      obtain ⟨-, e, he, -⟩ := ha.port_spec (show p ∈ t.interface.family true from hp)
      rw [ha.port_optional (show p ∈ t.interface.family true from hp) he] at ho
      simp [isIdle, he, ho] at hidle

/-- One source end is idle in the graph, so one is open in the tree, though not the same one. -/
theorem Graph.contested_residual_required : contested.unmatched = [] ∧
    ∃ t, MergeTree.build contested splitHead 4 = .ok t ∧ (t.openEnds "s" true).length = 1 ∧
      ∃ p ∈ t.residual, p.connection.optional = false ∧ ∃ c,
        contested.isIdle c = true ∧ c ∉ t.residual.map (·.origin) := by
  obtain ⟨t, hb, hopen⟩ := contested_build
  obtain ⟨-, count, displaced⟩ := contested_reachable.residual_required contested_unmatched hb
  have idle : ((contested.chainSide "s" true).filter contested.isIdle).length = 1 := by cbv
  obtain ⟨p, hp, hshown⟩ := List.map_eq_singleton_iff.mp hopen
  have hmem : p ∈ t.residual := hp ▸ List.mem_cons_self
  have hreq : p.connection.optional = false := (Prod.mk.inj hshown).2
  obtain ⟨c, hc, hclosed⟩ := displaced p hmem hreq
  exact ⟨contested_unmatched, t, hb, (count "s" true).trans idle, p, hmem, hreq, c,
    (List.mem_filter.mp hc).2, hclosed⟩

/-- The graph has no required end open, but the tree has. -/
theorem Graph.contested_required_open : contested.Reachable ∧ contested.unmatched = [] ∧
    ∃ t, MergeTree.build contested splitHead 4 = .ok t ∧
      ∃ p ∈ t.residual, p.connection.optional = false := by
  obtain ⟨t, hb, hopen⟩ := contested_build
  obtain ⟨p, hp, hshown⟩ := List.map_eq_singleton_iff.mp hopen
  exact ⟨contested_reachable, contested_unmatched, t, hb, p, hp ▸ List.mem_cons_self,
    (Prod.mk.inj hshown).2⟩

end HardwareLinker
