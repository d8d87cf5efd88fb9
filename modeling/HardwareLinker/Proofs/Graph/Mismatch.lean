import HardwareLinker.Proofs.Graph.Kept
import HardwareLinker.Proofs.Graph.LoadOrder

/-!
When assembly fails. Ends of one name and family under different owners must agree on their type;
nothing else can go wrong, and what is reported is such a pair. Pairs are compared while others are
linked already, but a comparison does not look at links, so none of this depends on how far matching
has come when it meets the pair.
-/

namespace HardwareLinker

/-- How a conflict between two ends is reported. -/
def Connection.TypeConflict.between {α : Type} (a b : Connection α) : TypeConflict :=
  ⟨a.name, a.owner, a.type, b.owner, b.type⟩

/-- A comparison does not look at links. -/
theorem Connection.conflict?_unmatch {α : Type} (a b : Connection α) :
    a.unmatch.conflict? b.unmatch = a.conflict? b := rfl

/-- Under different owners the owners alone decide which end is reported first. -/
theorem Connection.conflict?_eq_some {α : Type} {a b : Connection α} {t : TypeConflict}
    (hne : a.owner ≠ b.owner) (h : a.conflict? b = some t) :
    a.name = b.name ∧ a.type ≠ b.type ∧
      (a.owner < b.owner ∧ t = .between a b ∨ b.owner < a.owner ∧ t = .between b a) := by
  unfold conflict? at h
  split at h
  · next differ =>
    refine ⟨differ.1, differ.2, ?_⟩
    have other : (a.owner == b.owner) = false := beq_eq_false_iff_ne.mpr hne
    simp only [other, Bool.false_and, Bool.or_false, decide_eq_true_eq] at h
    split at h
    · next first =>
      cases h
      exact .inl ⟨first, rfl⟩
    · next second =>
      cases h
      have least : b.owner ≤ a.owner := String.not_lt.mp second
      have earlier : b.owner < a.owner :=
        Decidable.byContradiction fun h => hne (String.le_antisymm (String.not_lt.mp h) least)
      refine .inr ⟨earlier, ?_⟩
      rw [differ.1]
      rfl
  · cases h

namespace Graph

variable {α : Type}

/-- Ends of one name and family under different owners that disagree on their type. -/
structure Contrary (e f : Connection α) : Prop where
  family : e.kind.isChain = f.kind.isChain
  owners : e.owner ≠ f.owner
  name : e.name = f.name
  types : e.type ≠ f.type

theorem Contrary.symm {e f : Connection α} (h : Contrary e f) : Contrary f e :=
  ⟨h.family.symm, h.owners.symm, h.name.symm, h.types.symm⟩

theorem not_typesFit_iff {ends : List (Connection α)} :
    ¬ TypesFit ends ↔ ∃ e ∈ ends, ∃ f ∈ ends, Contrary e f := by
  constructor
  · intro h
    simp only [TypesFit, not_forall] at h
    obtain ⟨e, he, f, hf, owners, family, name, types⟩ := h
    exact ⟨e, he, f, hf, family, owners, name, types⟩
  · intro ⟨e, he, f, hf, contrary⟩ fit
    exact contrary.types (fit e he f hf contrary.owners contrary.family contrary.name)

/-- A conflict that matching meets is one between listed ends of different modules. -/
theorem conflict?_eq_some {g : Graph α} {fresh : String → Bool} {t : Connection.TypeConflict}
    (h : g.conflict? fresh = some t) :
    ∃ chain A B c d, A ≠ B ∧ g.Lists chain A c ∧ g.Lists chain B d ∧
      g.conflictAt? (c, d) = some t := by
  unfold Graph.conflict? at h
  rw [Option.orElse_eq_orElse, Option.orElse_eq_or, Option.or_eq_some_iff] at h
  cases h with
  | inl channel =>
      obtain ⟨⟨c, d⟩, compared, found⟩ := List.exists_of_findSome?_eq_some channel
      obtain ⟨A, B, hne, hc, hd⟩ := of_mem_channelCandidates compared
      exact ⟨false, A, B, c, d, hne, hc, hd, found⟩
  | inr chain =>
      obtain ⟨name, -, found⟩ := List.exists_of_findSome?_eq_some chain.2
      obtain ⟨⟨c, d⟩, compared, found⟩ := List.exists_of_findSome?_eq_some found
      obtain ⟨A, B, hne, hc, hd⟩ := of_mem_chainPairs compared
      exact ⟨true, A, B, c, d, hne, hc, hd, found⟩

theorem ofConnections_eq_error {ends : List (Connection α)} {fault : Fault} :
    ofConnections ends = .error fault ↔
      ∃ t, (gather ends).conflict? (fun _ => true) = some t ∧ fault = .typeMismatch t := by
  unfold ofConnections matchFresh
  cases (gather ends).conflict? fun _ => true <;> simp [eq_comm]

/-- What is reported is a pair of the given ends. -/
theorem contrary_of_conflict {ends : List (Connection α)} {t : Connection.TypeConflict}
    (h : (gather ends).conflict? (fun _ => true) = some t) :
    ∃ e ∈ ends, ∃ f ∈ ends, Contrary e f ∧ e.owner < f.owner ∧ t = .between e f := by
  obtain ⟨chain, A, B, c, d, hne, hc, hd, found⟩ := conflict?_eq_some h
  obtain ⟨x, hx, hxA, hxk⟩ := (coherent_gather ends).listed hc
  obtain ⟨y, hy, hyB, hyk⟩ := (coherent_gather ends).listed hd
  simp only [conflictAt?, hx, hy, Option.bind_eq_bind, Option.bind_some] at found
  obtain ⟨e, he, heA, hek, hxe⟩ := (lists_iff_mem fun _ => rfl).mp ⟨c, x, hc, hx, rfl⟩
  obtain ⟨f, hf, hfB, hfk, hyf⟩ := (lists_iff_mem fun _ => rfl).mp ⟨d, y, hd, hy, rfl⟩
  have owners : e.owner ≠ f.owner := by rwa [heA, hfB]
  rw [← Connection.conflict?_unmatch, ← hxe, ← hyf, Connection.conflict?_unmatch] at found
  obtain ⟨name, types, report⟩ := Connection.conflict?_eq_some owners found
  have contrary : Contrary e f := ⟨hek.trans hfk.symm, owners, name, types⟩
  cases report with
  | inl first => exact ⟨e, he, f, hf, contrary, first⟩
  | inr second => exact ⟨f, hf, e, he, contrary.symm, second⟩

/-- Matching in place comes out as matching by value. -/
theorem outcome_matchFresh [Scalar α] (s : Kept α) (fresh : String → Bool) :
    ((Kept.matchFresh fresh).apply s).1 = (s.graph.matchFresh fresh).map fun _ => () := by
  unfold Graph.matchFresh
  cases h : s.graph.conflict? fresh with
  | some t => exact Kept.apply_matchFresh_conflict h
  | none =>
      rw [Kept.apply_matchFresh_ok h]
      rfl

/-- Assembly fails just where two of the given ends are contrary. It then reports such a pair, the
end of the lesser owner first, and it does so too if every pair is compared in its turn, after the
pairs before it were linked. -/
theorem ofConnections_exact [Scalar α] (ends : List (Connection α)) :
    ((∃ fault, ofConnections ends = .error fault) ↔ ∃ e ∈ ends, ∃ f ∈ ends, Contrary e f) ∧
    (∀ fault, ofConnections ends = .error fault → ∃ e ∈ ends, ∃ f ∈ ends,
      Contrary e f ∧ e.owner < f.owner ∧ fault = .typeMismatch (.between e f)) ∧
    ∀ s : Kept α, s.graph = gather ends →
      ((Kept.matchFresh fun _ => true).apply s).1 = (ofConnections ends).map fun _ => () := by
  refine ⟨?_, fun fault h => ?_, fun s hs => ?_⟩
  · rw [← not_typesFit_iff, ← ofConnections_ok_iff]
    cases ofConnections ends <;> simp
  · obtain ⟨t, found, rfl⟩ := ofConnections_eq_error.mp h
    obtain ⟨e, he, f, hf, contrary, first, rfl⟩ := contrary_of_conflict found
    exact ⟨e, he, f, hf, contrary, first, rfl⟩
  · rw [outcome_matchFresh, hs]
    rfl

/-- Two ends that are linked before the third one is compared with them. -/
def lateEnds : List (Connection Rat) :=
  [plainEnd .send "x" "a", plainEnd .recv "x" "b",
    { plainEnd .recv "x" "c" with type := "Bit#(8)", optional := true }]

theorem late_ofConnections_exact :
    ofConnections lateEnds = .error (.typeMismatch ⟨"x", "a", "Bit#(1)", "c", "Bit#(8)"⟩) ∧
      (∃ e ∈ lateEnds, ∃ f ∈ lateEnds, Contrary e f) ∧
      ((Kept.matchFresh fun _ => true).apply ⟨gather lateEnds, [], false⟩).1 =
        .error (.typeMismatch ⟨"x", "a", "Bit#(1)", "c", "Bit#(8)"⟩) := by
  have found : (gather lateEnds).conflict? (fun _ => true) =
      some ⟨"x", "a", "Bit#(1)", "c", "Bit#(8)"⟩ := by cbv
  have refused := ofConnections_eq_error.mpr ⟨_, found, rfl⟩
  obtain ⟨iff, -, inPlace⟩ := ofConnections_exact lateEnds
  refine ⟨refused, iff.mp ⟨_, refused⟩, ?_⟩
  rw [inPlace ⟨gather lateEnds, [], false⟩ rfl, refused]
  rfl

end Graph
end HardwareLinker
