import HardwareLinker.Proofs.Graph.Partners

/-!
Types of linked ends. Matching compares ends of different modules only, so partners in two modules
carry one type. Ends of one module may differ, and a chain that a single module carries is closed
over whatever types its two ends have.
-/

namespace HardwareLinker.Graph

variable {α : Type}

/-- Partners that differ in type are chain ends of one module, the only carrier of their chain. -/
theorem Reachable.link_types {g : Graph α} (h : g.Reachable) {c p : ConnectionId}
    {e f : Connection α} (he : g.connection? c = some e) (hp : e.partner = some p)
    (hf : g.connection? p = some f) :
    e.type = f.type ∨
      (e.name = f.name ∧ e.owner = f.owner ∧ g.Lists true e.owner c ∧ g.Lists true e.owner p ∧
        ∀ A d x, g.Lists true A d → g.connection? d = some x → x.name = e.name → A = e.owner) := by
  have hs := h.sound
  obtain ⟨⟨chain, A, B, hA, hB, hAB⟩, f', hf', -, hn, -⟩ := hs.partners he hp
  cases hf.symm.trans hf'
  have hoA := (hs.coherent.listed_on_owner hA he).1
  have hoB := (hs.coherent.listed_on_owner hB hf).1
  by_cases hne : A = B
  · subst hne
    cases chain with
    | false => exact absurd rfl (hAB rfl)
    | true =>
        by_cases ht : e.type = f.type
        · exact .inl ht
        refine .inr ⟨hn, hoA.trans hoB.symm, hoA ▸ hA, hoA ▸ hB, fun C d x hC hx hxn => ?_⟩
        -- A further carrier was compared with both ends, so it would make their types equal.
        by_contra hCA
        have hne : A ≠ C := fun e' => hCA (e'.symm.trans hoA.symm)
        have hex := hs.typed trivial hne hA hC he hx hxn.symm
        have hfx := hs.typed trivial hne hB hC hf hx (hn.symm.trans hxn.symm)
        exact ht (hex.trans hfx.symm)
  · exact .inl (hs.typed trivial hne hA hB he hf hn)

/-- The source end of `b` and the sink end of `c` are partners in two modules, so they agree. -/
theorem pipeline_link_types :
    Reachable pipeline ∧ ∃ e f, pipeline.connection? ⟨5⟩ = some e ∧ e.partner = some ⟨9⟩ ∧
      pipeline.connection? ⟨9⟩ = some f ∧ e.type = f.type := by
  have hp : pipeline.partner? ⟨5⟩ = some ⟨9⟩ := by cbv
  have hb : pipeline.owner? ⟨5⟩ = some "b" := by cbv
  have hc : pipeline.owner? ⟨9⟩ = some "c" := by cbv
  obtain ⟨e, he, hep⟩ := partner?_eq_some.mp hp
  obtain ⟨f, hf, hfc⟩ := Option.map_eq_some_iff.mp hc
  have heb : e.owner = "b" := by simpa [owner?, he] using hb
  refine ⟨pipeline_reachable, e, f, he, hep, hf, ?_⟩
  refine (pipeline_reachable.link_types he hep hf).resolve_right fun lone => ?_
  have same := lone.2.1
  rw [heb, hfc] at same
  exact absurd same (by decide)

/-- One module with a source end and a sink end of a chain, of two types. -/
def mixedEnds : List (Connection Rat) :=
  [{ plainEnd .chainSource "s" "a" with type := "Bit#(8)" },
    { plainEnd .chainSink "s" "a" with type := "Bit#(16)" }]

/-- The ends of a lone carrier are never compared: the chain closes over two types. -/
theorem lone_carrier_types_differ :
    Reachable (assembly mixedEnds) ∧ ∃ e f, (assembly mixedEnds).connection? ⟨0⟩ = some e ∧
      (assembly mixedEnds).connection? ⟨1⟩ = some f ∧ e.partner = some ⟨1⟩ ∧
      f.partner = some ⟨0⟩ ∧ e.name = f.name ∧ e.type ≠ f.type := by
  refine ⟨.assembled (by simp [mixedEnds, plainEnd]) (matchFresh_ok (by cbv)), ?_⟩
  have he : (assembly mixedEnds).connection? ⟨0⟩ = some
      { plainEnd .chainSource "s" "a" with
        type := "Bit#(8)", matched := true, partner := some ⟨1⟩ } := by cbv
  have hf : (assembly mixedEnds).connection? ⟨1⟩ = some
      { plainEnd .chainSink "s" "a" with
        type := "Bit#(16)", matched := true, partner := some ⟨0⟩ } := by cbv
  exact ⟨_, _, he, hf, rfl, rfl, rfl, by decide⟩

end HardwareLinker.Graph
