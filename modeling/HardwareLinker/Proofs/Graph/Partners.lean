import Mathlib.Data.List.Permutation
import HardwareLinker.Proofs.Graph.Reachable

/-!
Partners in reachable graphs. An end is matched exactly when it has a partner; partners name each
other, complement each other under one name and stay on the interfaces of their modules, and two
channels that are partners belong to different modules.
-/

namespace HardwareLinker.Graph

variable {α : Type}

def partner? (g : Graph α) (c : ConnectionId) : Option ConnectionId :=
  (g.connection? c).bind (·.partner)

def owner? (g : Graph α) (c : ConnectionId) : Option String := (g.connection? c).map (·.owner)

theorem partner?_eq_some {g : Graph α} {c p : ConnectionId} :
    g.partner? c = some p ↔ ∃ e, g.connection? c = some e ∧ e.partner = some p :=
  Option.bind_eq_some_iff

theorem Sound.partners {g : Graph α} (h : g.Sound) {c p : ConnectionId} {e : Connection α}
    (he : g.connection? c = some e) (hp : e.partner = some p) :
    g.MayLink c p ∧ ∃ f, g.connection? p = some f ∧ f.partner = some c ∧ e.name = f.name ∧
      e.kind.complements f.kind = true := h.linked.partners he hp

theorem Sound.partner_symm {g : Graph α} (h : g.Sound) {c p : ConnectionId}
    (hp : g.partner? c = some p) : g.partner? p = some c := by
  obtain ⟨e, he, hep⟩ := partner?_eq_some.mp hp
  obtain ⟨-, f, hf, hfp, -⟩ := h.partners he hep
  exact partner?_eq_some.mpr ⟨f, hf, hfp⟩

theorem Sound.partner_ne {g : Graph α} (h : g.Sound) {c p : ConnectionId}
    (hp : g.partner? c = some p) : p ≠ c := by
  rintro rfl
  obtain ⟨e, he, hep⟩ := partner?_eq_some.mp hp
  obtain ⟨-, f, hf, -, -, hk⟩ := h.partners he hep
  rw [he] at hf
  cases hf
  simp [Connection.Kind.complements_irrefl] at hk

/-- The interface that lists an end is the one of its owner. -/
theorem Coherent.listed_on_owner {g : Graph α} (h : g.Coherent) {chain : Bool} {A : String}
    {c : ConnectionId} (hc : g.Lists chain A c) {e : Connection α}
    (he : g.connection? c = some e) :
    e.owner = A ∧ e.kind.isChain = chain ∧ ∃ m, g.module? e.owner = some m ∧ c ∈ m.ends := by
  obtain ⟨f, hf, ho, hk⟩ := h.listed hc
  rw [he] at hf
  cases hf
  obtain ⟨m, hm, hcm⟩ := hc
  refine ⟨ho, hk, m, ?_, Module.mem_ends.mpr ⟨chain, hcm⟩⟩
  rw [ho]
  exact NameMap.find?_eq_some.mpr hm

/-- In a reachable graph the match state of every end, listed or not, is consistent. -/
theorem Reachable.partners_mutual {g : Graph α} (h : Reachable g) (c : ConnectionId)
    (e : Connection α) (he : g.connection? c = some e) :
    (e.matched = true ↔ e.partner.isSome = true) ∧
    ∀ p, e.partner = some p → p ≠ c ∧ ∃ f, g.connection? p = some f ∧
      f.partner = some c ∧ f.name = e.name ∧ e.kind.complements f.kind = true ∧
      (∃ m, g.module? e.owner = some m ∧ c ∈ m.ends) ∧
      (∃ m, g.module? f.owner = some m ∧ p ∈ m.ends) ∧
      (e.kind.isChain = false → e.owner ≠ f.owner) := by
  have hs := h.sound
  refine ⟨hs.linked.matched_iff he, fun p hp => ?_⟩
  have hne := hs.partner_ne (partner?_eq_some.mpr ⟨e, he, hp⟩)
  obtain ⟨⟨chain, A, B, hA, hB, hAB⟩, f, hf, hfp, hn, hk⟩ := hs.partners he hp
  obtain ⟨hoA, hkA, hmA⟩ := hs.coherent.listed_on_owner hA he
  obtain ⟨hoB, -, hmB⟩ := hs.coherent.listed_on_owner hB hf
  refine ⟨hne, f, hf, hfp, hn.symm, hk, hmA, hmB, fun hchannel => ?_⟩
  rw [hoA, hoB]
  exact hAB (hkA.symm.trans hchannel)

/-! ### A pipeline of three modules -/

def plainEnd (kind : Connection.Kind) (name owner : String) : Connection Rat :=
  { kind, name, type := "Bit#(1)", width := 1, index := 0, optional := false, owner
    chainRoot := none, activity := 1, matched := false, partner := none }

/-- Two modules with a channel between them, an open channel and a chain through both. -/
def headEnds : List (Connection Rat) :=
  [plainEnd .send "x" "a", plainEnd .chainSource "s" "a", plainEnd .chainSink "s" "a",
    plainEnd .recv "x" "b", plainEnd .send "y" "b", plainEnd .chainSource "s" "b",
    plainEnd .chainSink "s" "b"]

/-- The module that takes the open channel and carries the chain on. -/
def tailEnds : List (Connection Rat) :=
  [plainEnd .recv "y" "c", plainEnd .chainSource "s" "c", plainEnd .chainSink "s" "c"]

/-- All ends of a list, matched among each other. -/
def assembly (ends : List (Connection Rat)) : Graph Rat := (gather ends).linkFresh fun _ => true

def pipeline : Graph Rat :=
  ((assembly headEnds).juxtapose (assembly tailEnds)).linkFresh (assembly tailEnds).modules.contains

theorem merge_pipeline : (assembly headEnds).merge (assembly tailEnds) = .ok pipeline :=
  merge_ok (by cbv) (by cbv) (by cbv)

theorem pipeline_reachable : Reachable pipeline := by
  have head : Reachable (assembly headEnds) :=
    .assembled (by simp [headEnds, plainEnd]) (matchFresh_ok (by cbv))
  have tail : Reachable (assembly tailEnds) :=
    .assembled (by simp [tailEnds, plainEnd]) (matchFresh_ok (by cbv))
  exact .merged head tail merge_pipeline

/-- The merge takes the chain from `b` on to `c`, so the ends that closed the ring before are
partners no longer. -/
theorem pipeline_partners_mutual :
    Reachable pipeline ∧ ∃ e, pipeline.connection? ⟨5⟩ = some e ∧ e.partner = some ⟨9⟩ ∧
      ∃ f, pipeline.connection? ⟨9⟩ = some f ∧ f.partner = some ⟨5⟩ := by
  refine ⟨pipeline_reachable, ?_⟩
  have h : pipeline.partner? ⟨5⟩ = some ⟨9⟩ := by cbv
  obtain ⟨e, he, hp⟩ := partner?_eq_some.mp h
  obtain ⟨-, f, hf, hfp, -⟩ := (pipeline_reachable.partners_mutual ⟨5⟩ e he).2 ⟨9⟩ hp
  exact ⟨e, he, hp, f, hf, hfp⟩

end HardwareLinker.Graph
