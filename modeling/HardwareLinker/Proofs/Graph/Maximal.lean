import HardwareLinker.Proofs.Graph.Cache
import HardwareLinker.Proofs.Graph.Converged

/-!
Channel matching is maximal. A merge looks at pairs with a new module only and no match is ever
undone, so a pair of free channels that could be linked would have been linked when the later of
its two modules came. That holds in whatever match state the ends come.
-/

namespace HardwareLinker.Graph

variable {α : Type}

theorem Exhausted.attach_nil {g : Graph α} (h : g.Exhausted) {name : String}
    (hnew : name ∉ g.modules.keys) (m : Module) : (g.attach name m []).Exhausted := by
  intro A B c d hne hc hd
  rw [connections_attach_nil]
  exact h hne ((lists_attach_nil hnew).mp hc) ((lists_attach_nil hnew).mp hd)

theorem Exhausted.trim {g : Graph α} (h : g.Exhausted) : g.trim.Exhausted := by
  intro A B c d hne hc hd
  exact h hne (lists_trim.mp hc).1 (lists_trim.mp hd).1

namespace Kept

variable [Scalar α]

theorem Reachable.exhausted {s : Kept α} (h : s.Reachable) : s.graph.Exhausted := by
  induction h with
  | empty => exact converged_empty.exhausted
  | assembled h =>
      obtain ⟨g, hg, rfl⟩ := map_eq_ok h
      exact exhausted_ofConnections hg
  | added _ h ih =>
      obtain ⟨r, hg, hr⟩ := map_eq_ok h
      cases hr
      obtain ⟨hnew, hr⟩ := addModule_eq hg
      rw [hr]
      exact ih.attach_nil hnew _
  | @merged s incoming hs hi ih _ =>
      have old := hs.current.consistent
      have new := hi.current.consistent
      rw [apply_merge old new]
      cases hm : s.graph.merge incoming.graph with
      | error f => exact ih
      | ok g => exact ih.merge old.coherent new.coherent hm
  | trimmed _ ih => exact ih.trim

/-- Two free channels of different modules that bear one name do not complement each other. -/
theorem Reachable.channels_maximal {s : Kept α} (h : s.Reachable) {A B : String}
    {c d : ConnectionId} {e f : Connection α} (hne : A ≠ B) (hc : s.graph.Lists false A c)
    (hd : s.graph.Lists false B d) (he : s.graph.connection? c = some e)
    (hf : s.graph.connection? d = some f) (free : e.matched = false) (free' : f.matched = false) :
    ¬ (e.name = f.name ∧ e.kind.complements f.kind = true) := by
  intro ⟨hname, hkind⟩
  have linkable : Table.linkable s.graph.connections c d = true :=
    Table.linkable_iff.mpr ⟨e, f, he, hf, hname, free, free', hkind⟩
  rw [h.exhausted hne hc hd] at linkable
  cases linkable

end Kept

/-! ### Three senders and one receiver -/

def senderEnds : List (Connection Rat) := [plainEnd .send "x" "a", plainEnd .send "x" "b"]

/-- The receiver, and a sender that comes with it. -/
def laterEnds : List (Connection Rat) := [plainEnd .recv "x" "c", plainEnd .send "x" "d"]

def crowded : Graph Rat :=
  ((assembly senderEnds).juxtapose (assembly laterEnds)).linkFresh
    (assembly laterEnds).modules.contains

theorem derive_crowded_reachable : (Kept.derive crowded).Reachable := by
  have old := derive_assembly_reachable (by cbv : (gather senderEnds).conflict? _ = none)
  have new := derive_assembly_reachable (by cbv : (gather laterEnds).conflict? _ = none)
  exact old.derive_merge new (merge_ok (by cbv) (by cbv) (by cbv))

/-- The receiver is linked with the sender of `a`, which leaves those of `b` and `d` free. -/
theorem crowded_channels_maximal :
    (Kept.derive crowded).Reachable ∧ ∃ e f, crowded.connection? ⟨1⟩ = some e ∧
      crowded.connection? ⟨3⟩ = some f ∧ e.matched = false ∧ f.matched = false ∧
      e.name = f.name ∧ e.kind.complements f.kind = false := by
  have he : crowded.connection? ⟨1⟩ = some (plainEnd .send "x" "b") := by cbv
  have hf : crowded.connection? ⟨3⟩ = some (plainEnd .send "x" "d") := by cbv
  have listed {A : String} {l : List ConnectionId}
      (h : (crowded.module? A).map Module.channels = some l) {c : ConnectionId} (hc : c ∈ l) :
      crowded.Lists false A c := by
    obtain ⟨m, hm, rfl⟩ := Option.map_eq_some_iff.mp h
    exact ⟨m, NameMap.find?_eq_some.mp hm, hc⟩
  have hc : crowded.Lists false "b" ⟨1⟩ := listed (l := [⟨1⟩]) (by cbv) (by decide)
  have hd : crowded.Lists false "d" ⟨3⟩ := listed (l := [⟨3⟩]) (by cbv) (by decide)
  have maximal := derive_crowded_reachable.channels_maximal (by decide) hc hd he hf rfl rfl
  refine ⟨derive_crowded_reachable, _, _, he, hf, rfl, rfl, rfl, ?_⟩
  exact eq_false_of_ne_true fun hk => maximal ⟨rfl, hk⟩

end HardwareLinker.Graph
