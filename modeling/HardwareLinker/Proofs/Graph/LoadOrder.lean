import HardwareLinker.Proofs.Graph.Correspondence

/-!
Merging lists of ends one after another. It succeeds just where no two lists share an owner and ends
of one name and family agree on their type across owners, whatever the order of the lists; and the
graph then shows what is gathered from all ends at once. Between two points such graphs differ in
their handles only.
-/

namespace HardwareLinker.Graph

variable {α : Type}

/-- Assembles each list of ends and merges it. -/
def mergeAll (g : Graph α) : List (List (Connection α)) → Except Fault (Graph α)
  | [] => .ok g
  | part :: rest => do mergeAll (← g.merge (← ofConnections part)) rest

/-- Ends as records announce them. -/
def AllFree (ends : List (Connection α)) : Prop :=
  ∀ e ∈ ends, e.matched = false ∧ e.partner = none

/-- No owner in common. -/
def Apart (a b : List (Connection α)) : Prop := ∀ e ∈ a, ∀ f ∈ b, e.owner ≠ f.owner

/-- Ends of one name and family agree on their type across owners. -/
def TypesFit (ends : List (Connection α)) : Prop :=
  ∀ e ∈ ends, ∀ f ∈ ends, e.owner ≠ f.owner → e.kind.isChain = f.kind.isChain →
    e.name = f.name → e.type = f.type

instance (a b : List (Connection α)) : Decidable (Apart a b) :=
  inferInstanceAs (Decidable (∀ e ∈ a, ∀ f ∈ b, e.owner ≠ f.owner))

instance (ends : List (Connection α)) : Decidable (TypesFit ends) :=
  inferInstanceAs (Decidable (∀ e ∈ ends, ∀ f ∈ ends, e.owner ≠ f.owner →
    e.kind.isChain = f.kind.isChain → e.name = f.name → e.type = f.type))

/-- Lists of ends that can be merged. -/
structure Fit (parts : List (List (Connection α))) : Prop where
  apart : parts.Pairwise Apart
  typed : TypesFit parts.flatten

theorem TypesFit.mono {ends ends' : List (Connection α)} (h : TypesFit ends') (hs : ends ⊆ ends') :
    TypesFit ends := fun e he f hf => h e (hs he) f (hs hf)

instance : Std.Symm (@Apart α) := ⟨fun _ _ h f hf e he => (h e he f hf).symm⟩

theorem apart_append {a b c : List (Connection α)} :
    Apart (a ++ b) c ↔ Apart a c ∧ Apart b c := by
  simp only [Apart, List.forall_mem_append]

theorem fit_cons_cons {a b : List (Connection α)} {rest : List (List (Connection α))} :
    Fit (a :: b :: rest) ↔ Apart a b ∧ Fit ((a ++ b) :: rest) := by
  have flatten : (a :: b :: rest).flatten = ((a ++ b) :: rest).flatten := by simp
  have pairwise : (a :: b :: rest).Pairwise Apart ↔
      Apart a b ∧ ((a ++ b) :: rest).Pairwise Apart := by
    simp only [List.pairwise_cons, List.forall_mem_cons, apart_append, forall_and]
    constructor
    · intro ⟨⟨hab, ha⟩, hb, hrest⟩
      exact ⟨hab, ⟨ha, hb⟩, hrest⟩
    · intro ⟨hab, ⟨ha, hb⟩, hrest⟩
      exact ⟨⟨hab, ha⟩, hb, hrest⟩
  constructor
  · intro ⟨apart, typed⟩
    obtain ⟨hab, hrest⟩ := pairwise.mp apart
    exact ⟨hab, hrest, flatten ▸ typed⟩
  · intro ⟨hab, hrest, typed⟩
    exact ⟨pairwise.mpr ⟨hab, hrest⟩, flatten.symm ▸ typed⟩

theorem fit_nil_cons {parts : List (List (Connection α))} : Fit ([] :: parts) ↔ Fit parts := by
  constructor
  · intro ⟨apart, typed⟩
    exact ⟨(List.pairwise_cons.mp apart).2, typed⟩
  · intro ⟨apart, typed⟩
    exact ⟨List.pairwise_cons.mpr ⟨fun _ _ => nofun, apart⟩, typed⟩

/-- Of two lists apart only one has ends of an owner. -/
theorem Apart.ownedBy_eq_nil {a b : List (Connection α)} (h : Apart a b) {name : String}
    (hb : ownedBy name b ≠ []) : ownedBy name a = [] := by
  obtain ⟨f, hf⟩ := List.exists_mem_of_ne_nil _ hb
  obtain ⟨hf, hfn⟩ := List.mem_filter.mp hf
  rw [ownedBy, List.filter_eq_nil_iff]
  intro e he hen
  exact h e he f hf ((beq_iff_eq.mp hen).trans (beq_iff_eq.mp hfn).symm)

theorem ownedBy_append (name : String) (a b : List (Connection α)) :
    ownedBy name (a ++ b) = ownedBy name a ++ ownedBy name b := List.filter_append ..

/-! ### What a graph shows of the ends it was built from -/

/-- A graph that shows the ends of a list, linked as far as they can be. -/
structure Built (ends : List (Connection α)) (g : Graph α) : Prop where
  converged : g.Converged
  face : ∀ name, g.face? name = (gather ends).face? name

theorem lists_iff_mem {ends : List (Connection α)} {g : Graph α}
    (h : ∀ name, g.face? name = (gather ends).face? name) {name : String} {chain : Bool}
    {x : Connection α} :
    (∃ c e, g.Lists chain name c ∧ g.connection? c = some e ∧ e.unmatch = x) ↔
      ∃ e ∈ ends, e.owner = name ∧ e.kind.isChain = chain ∧ e.unmatch = x := by
  rw [← mem_face, h, face?_gather]
  have owned : x ∈ (plainFace (ownedBy name ends)).ends chain ↔
      ∃ e ∈ ends, e.owner = name ∧ e.kind.isChain = chain ∧ e.unmatch = x := by
    refine mem_sortedFamily.trans ?_
    simp [ownedBy, and_assoc]
  rw [← owned]
  split
  · next hnone => simp [hnone, plainFace, portrait, sortedFamily]
  · simp

theorem mem_keys_iff_mem {ends : List (Connection α)} {g : Graph α}
    (h : ∀ name, g.face? name = (gather ends).face? name) {name : String} :
    name ∈ g.modules.keys ↔ ∃ e ∈ ends, e.owner = name := by
  rw [mem_keys_iff_face?, h, face?_gather]
  split
  · next hnone =>
    have hnone := List.filter_eq_nil_iff.mp hnone
    simp only [reduceCtorEq, exists_false, false_iff, not_exists, not_and]
    intro e he howner
    exact hnone e he (beq_iff_eq.mpr howner)
  · next hsome =>
    obtain ⟨e, he⟩ := List.exists_mem_of_ne_nil _ hsome
    obtain ⟨he, howner⟩ := List.mem_filter.mp he
    exact iff_of_true ⟨_, rfl⟩ ⟨e, he, beq_iff_eq.mp howner⟩

theorem typesAgree_iff {ends : List (Connection α)} {g : Graph α}
    (h : ∀ name, g.face? name = (gather ends).face? name) :
    (g.TypesAgree fun _ _ => True) ↔ TypesFit ends := by
  constructor
  · intro typed e he f hf howner hchain hname
    obtain ⟨c, x, hc, hx, hxe⟩ := (lists_iff_mem h).mpr ⟨e, he, rfl, hchain, rfl⟩
    obtain ⟨d, y, hd, hy, hyf⟩ := (lists_iff_mem h).mpr ⟨f, hf, rfl, rfl, rfl⟩
    rw [← Connection.type_eq_of_unmatch hxe, ← Connection.type_eq_of_unmatch hyf]
    refine typed trivial howner hc hd hx hy ?_
    rw [Connection.name_eq_of_unmatch hxe, Connection.name_eq_of_unmatch hyf, hname]
  · intro typed chain A B c d x y _ hne hc hd hx hy hname
    obtain ⟨e, he, rfl, hke, hxe⟩ := (lists_iff_mem h).mp ⟨c, x, hc, hx, rfl⟩
    obtain ⟨f, hf, rfl, hkf, hyf⟩ := (lists_iff_mem h).mp ⟨d, y, hd, hy, rfl⟩
    rw [← Connection.type_eq_of_unmatch hxe, ← Connection.type_eq_of_unmatch hyf]
    refine typed e he f hf hne (hke.trans hkf.symm) ?_
    rw [Connection.name_eq_of_unmatch hxe, Connection.name_eq_of_unmatch hyf, hname]

/-! ### Assembly -/

theorem ofConnections_ok_iff {ends : List (Connection α)} :
    (∃ g, ofConnections ends = .ok g) ↔ TypesFit ends := by
  rw [← typesAgree_iff (g := gather ends) fun _ => rfl]
  constructor
  · intro ⟨g, h⟩ chain A B c d e f _ hne hc hd he hf hname
    exact typesAgree_of_no_conflict (matchFresh_eq_ok h).1 (.inl rfl) hne hc hd he hf hname
  · intro typed
    exact ⟨_, matchFresh_ok (typed.conflict?_eq_none _)⟩

theorem built_ofConnections {ends : List (Connection α)} (free : AllFree ends) {g : Graph α}
    (h : ofConnections ends = .ok g) : Built ends g := by
  refine ⟨converged_ofConnections free h, fun name => ?_⟩
  obtain ⟨-, rfl⟩ := matchFresh_eq_ok h
  exact face?_linkFresh _ _ name

theorem built_empty : Built [] (empty : Graph α) := ⟨converged_empty, fun _ => rfl⟩

/-! ### Merging -/

theorem facesSorted_of_face {ends : List (Connection α)} {g : Graph α}
    (h : ∀ name, g.face? name = (gather ends).face? name) : g.FacesSorted := by
  intro name f hf chain
  rw [h, face?_gather] at hf
  split at hf
  · cases hf
  · cases hf
    exact pairwise_sortedFamily _ chain

theorem sharedName_iff {a b : List (Connection α)} {g incoming : Graph α} (hg : Built a g)
    (hi : Built b incoming) : (¬ ∃ name, g.SharedName incoming name) ↔ Apart a b := by
  simp only [SharedName, moduleNames, mem_keys_iff_mem hg.face, mem_keys_iff_mem hi.face]
  constructor
  · intro h e he f hf howner
    exact h ⟨e.owner, ⟨e, he, rfl⟩, f, hf, howner.symm⟩
  · rintro h ⟨name, ⟨e, he, hen⟩, f, hf, hfn⟩
    exact h e he f hf (hen.trans hfn.symm)

theorem Built.merge {a b : List (Connection α)} {g incoming g' : Graph α} (hg : Built a g)
    (hi : Built b incoming) (h : g.merge incoming = .ok g') : Built (a ++ b) g' := by
  refine ⟨hg.converged.merge hi.converged.sound h, fun name => ?_⟩
  obtain ⟨hshared, h⟩ := merge_eq_ok h
  obtain ⟨-, rfl⟩ := matchFresh_eq_ok h
  have apart := sharedModule?_eq_none.mp hshared
  rw [face?_linkFresh, face?_juxtapose hg.converged.sound.coherent hi.converged.sound.coherent
    (facesSorted_of_face hi.face) apart, hg.face, hi.face, face?_gather, face?_gather,
    face?_gather, ownedBy_append]
  by_cases hb : ownedBy name b = []
  · rw [hb, if_pos rfl, Option.none_or, List.append_nil]
  · have ha := ((sharedName_iff hg hi).mp apart).ownedBy_eq_nil hb
    rw [if_neg hb, Option.some_or, ha, List.nil_append, if_neg hb]

theorem Built.merge_ok_iff {a b : List (Connection α)} {g incoming : Graph α} (hg : Built a g)
    (hi : Built b incoming) :
    (∃ g', g.merge incoming = .ok g') ↔ Apart a b ∧ TypesFit (a ++ b) := by
  constructor
  · intro ⟨g', h⟩
    have built := hg.merge hi h
    exact ⟨(sharedName_iff hg hi).mp (sharedModule?_eq_none.mp (merge_eq_ok h).1),
      (typesAgree_iff built.face).mp built.converged.sound.typed⟩
  · intro ⟨apart, typed⟩
    have unshared := (sharedName_iff hg hi).mpr apart
    have unclashed : ¬ ∃ old new, g.Clash incoming old new := by
      intro ⟨old, new, hname, htype, chain, A, B, o, c, ho, hold, hc, hnew⟩
      obtain ⟨e, he, heA, hke, hold⟩ := (lists_iff_mem hg.face).mp ⟨o, old, ho, hold, rfl⟩
      obtain ⟨f, hf, hfB, hkf, hnew⟩ := (lists_iff_mem hi.face).mp ⟨c, new, hc, hnew, rfl⟩
      rw [← Connection.name_eq_of_unmatch hold, ← Connection.name_eq_of_unmatch hnew] at hname
      rw [← Connection.type_eq_of_unmatch hold, ← Connection.type_eq_of_unmatch hnew] at htype
      exact htype (typed e (List.mem_append_left b he) f (List.mem_append_right a hf)
        (apart e he f hf) (hke.trans hkf.symm) hname)
    have agree := typesAgree_juxtapose hg.converged.sound hi.converged.sound unshared unclashed
    exact ⟨_, merge_ok (sharedModule?_eq_none.mpr unshared)
      ((mergeConflict?_eq_none hg.converged.sound.coherent hi.converged.sound.coherent).mpr
        unclashed) (agree.conflict?_eq_none _)⟩

/-! ### One list after another -/

theorem mergeAll_cons {g g' : Graph α} {part : List (Connection α)}
    {rest : List (List (Connection α))} : mergeAll g (part :: rest) = .ok g' ↔
      ∃ incoming merged, ofConnections part = .ok incoming ∧ g.merge incoming = .ok merged ∧
        mergeAll merged rest = .ok g' := by
  constructor
  · intro h
    obtain ⟨incoming, hi, h⟩ := bind_eq_ok h
    obtain ⟨merged, hm, h⟩ := bind_eq_ok h
    exact ⟨incoming, merged, hi, hm, h⟩
  · intro ⟨incoming, merged, hi, hm, h⟩
    unfold mergeAll
    rw [hi]
    change g.merge incoming >>= _ = _
    rw [hm]
    exact h

theorem Built.mergeAll {ends : List (Connection α)} {g g' : Graph α} (hg : Built ends g)
    {parts : List (List (Connection α))} (free : ∀ part ∈ parts, AllFree part)
    (h : Graph.mergeAll g parts = .ok g') : Built (ends ++ parts.flatten) g' := by
  induction parts generalizing ends g with
  | nil =>
      cases h
      simpa using hg
  | cons part rest ih =>
      obtain ⟨hpart, hrest⟩ := List.forall_mem_cons.mp free
      obtain ⟨incoming, merged, hi, hm, h⟩ := mergeAll_cons.mp h
      rw [List.flatten_cons, ← List.append_assoc]
      exact ih (hg.merge (built_ofConnections hpart hi) hm) hrest h

theorem Built.mergeAll_ok_iff {ends : List (Connection α)} {g : Graph α} (hg : Built ends g)
    {parts : List (List (Connection α))} (free : ∀ part ∈ parts, AllFree part) :
    (∃ g', Graph.mergeAll g parts = .ok g') ↔ Fit (ends :: parts) := by
  induction parts generalizing ends g with
  | nil =>
      refine iff_of_true ⟨g, rfl⟩ ⟨List.pairwise_singleton _ _, ?_⟩
      simpa using (typesAgree_iff hg.face).mp hg.converged.sound.typed
  | cons part rest ih =>
      obtain ⟨hpart, hrest⟩ := List.forall_mem_cons.mp free
      rw [fit_cons_cons]
      constructor
      · intro ⟨g', h⟩
        obtain ⟨incoming, merged, hi, hm, h⟩ := mergeAll_cons.mp h
        have built := built_ofConnections hpart hi
        exact ⟨((hg.merge_ok_iff built).mp ⟨merged, hm⟩).1,
          (ih (hg.merge built hm) hrest).mp ⟨g', h⟩⟩
      · intro ⟨apart, fit⟩
        have both : TypesFit (ends ++ part) := fit.typed.mono (List.subset_append_left _ _)
        obtain ⟨incoming, hi⟩ := ofConnections_ok_iff.mpr
          (both.mono (List.subset_append_right ends part))
        have built := built_ofConnections hpart hi
        obtain ⟨merged, hm⟩ := (hg.merge_ok_iff built).mpr ⟨apart, both⟩
        obtain ⟨g', h⟩ := (ih (hg.merge built hm) hrest).mpr fit
        exact ⟨g', mergeAll_cons.mpr ⟨incoming, merged, hi, hm, h⟩⟩

/-! ### The order of the lists -/

theorem Fit.perm {parts parts' : List (List (Connection α))} (h : parts.Perm parts')
    (fit : Fit parts) : Fit parts' := by
  refine ⟨(h.pairwise_iff (Std.Symm.symm _ _)).mp fit.apart, fit.typed.mono ?_⟩
  exact h.flatten.symm.subset

/-- Lists apart announce the same ends under each owner in any order. -/
theorem ownedBy_flatten_perm {parts parts' : List (List (Connection α))} (h : parts.Perm parts')
    (apart : parts.Pairwise Apart) (name : String) :
    ownedBy name parts.flatten = ownedBy name parts'.flatten := by
  induction h with
  | nil => rfl
  | cons a h ih =>
      rw [List.flatten_cons, List.flatten_cons, ownedBy_append, ownedBy_append,
        ih (List.pairwise_cons.mp apart).2]
  | swap a b rest =>
      have hba : Apart b a := (List.pairwise_cons.mp apart).1 a List.mem_cons_self
      simp only [List.flatten_cons, ownedBy_append]
      by_cases ha : ownedBy name a = []
      · rw [ha, List.nil_append, List.nil_append]
      · rw [hba.ownedBy_eq_nil ha, List.nil_append, List.nil_append]
  | trans h _ ih ih' =>
      exact (ih apart).trans (ih' ((h.pairwise_iff (Std.Symm.symm _ _)).mp apart))

theorem mergeAll_ok_iff {parts : List (List (Connection α))}
    (free : ∀ part ∈ parts, AllFree part) :
    (∃ g, mergeAll empty parts = .ok g) ↔ Fit parts :=
  (built_empty.mergeAll_ok_iff free).trans fit_nil_cons

/-- Lists of ends merge in every order or in none, and between two points all orders make the graph
of all ends at once, but for handles. -/
theorem mergeAll_perm {parts parts' : List (List (Connection α))} (hperm : parts.Perm parts')
    (free : ∀ part ∈ parts, AllFree part) (hp : PointToPoint parts.flatten) {g : Graph α}
    (h : mergeAll empty parts = .ok g) :
    (∃ g', mergeAll empty parts' = .ok g' ∧ ∃ ρ, g.Renamed ρ g') ∧
      ∃ g', ofConnections parts.flatten = .ok g' ∧ ∃ ρ, g.Renamed ρ g' := by
  have free' : ∀ part ∈ parts', AllFree part := fun part hm => free part (hperm.mem_iff.mpr hm)
  have fit := (mergeAll_ok_iff free).mp ⟨g, h⟩
  have built : Built parts.flatten g := built_empty.mergeAll free h
  constructor
  · obtain ⟨g', h'⟩ := (mergeAll_ok_iff free').mpr (fit.perm hperm)
    have built' : Built parts'.flatten g' := built_empty.mergeAll free' h'
    have same : gather parts.flatten = gather parts'.flatten :=
      gather_congr (ownedBy_flatten_perm hperm fit.apart)
    exact ⟨g', h', hp.exists_renamed built.converged built'.converged built.face
      (same ▸ built'.face)⟩
  · obtain ⟨g', h'⟩ := ofConnections_ok_iff.mpr fit.typed
    have built' := built_ofConnections (List.forall_mem_flatten.mpr free) h'
    exact ⟨g', h', hp.exists_renamed built.converged built'.converged built.face built'.face⟩

end HardwareLinker.Graph
