import HardwareLinker.Proofs.Graph.Cache
import HardwareLinker.Proofs.Graph.LoadOrder

/-!
What all operations on a kept graph keep, the descriptions of modules included. Interfaces are
coherent and agree on types, they stand in the order of names, and every module has a handle of its
own: modules are never removed, so their count is the next free handle.
-/

namespace HardwareLinker

/-- A change to a module that leaves its handle and its interface alone. -/
structure Module.Descriptive (f : Module → Module) : Prop where
  id : ∀ m, (f m).id = m.id
  channels : ∀ m, (f m).channels = m.channels
  chains : ∀ m, (f m).chains = m.chains

theorem Module.descriptive_addArtifact (kind path : String) :
    Descriptive fun m => m.addArtifact kind path :=
  ⟨fun _ => rfl, fun _ => rfl, fun _ => rfl⟩

theorem Module.Descriptive.family {f : Module → Module} (h : Descriptive f) (m : Module)
    (chain : Bool) : (f m).family chain = m.family chain := by
  cases chain with
  | false => exact h.channels m
  | true => exact h.chains m

namespace Graph

variable {α : Type}

/-! ### Handles of modules -/

/-- The module that a handle denotes, with its name. -/
def moduleAt? (g : Graph α) (id : ModuleId) : Option (String × Module) :=
  g.modules.entries.find? fun x => x.2.id == id

/-- Handles count the modules, and no two modules share one. -/
structure Numbered (g : Graph α) : Prop where
  bounded : ∀ x ∈ g.modules.entries, x.2.id.slot < g.modules.size
  distinct : ∀ x ∈ g.modules.entries, ∀ y ∈ g.modules.entries, x.2.id = y.2.id → x = y

theorem Numbered.moduleAt?_eq_some {g : Graph α} (h : g.Numbered) {id : ModuleId}
    {x : String × Module} :
    g.moduleAt? id = some x ↔ x ∈ g.modules.entries ∧ x.2.id = id := by
  unfold moduleAt?
  constructor
  · intro found
    exact ⟨List.mem_of_find?_eq_some found, by simpa using List.find?_some found⟩
  · intro ⟨hx, hid⟩
    cases found : g.modules.entries.find? fun x => x.2.id == id with
    | none => exact absurd (beq_iff_eq.mpr hid) (List.find?_eq_none.mp found x hx)
    | some y =>
        have hy := List.mem_of_find?_eq_some found
        have same : y.2.id = id := by simpa using List.find?_some found
        exact congrArg some (h.distinct y hy x hx (same.trans hid.symm))

theorem Numbered.attach {g : Graph α} (h : g.Numbered) {name : String}
    (hnew : name ∉ g.modules.keys) (m : Module) (ends : List (Connection α)) :
    (g.attach name m ends).Numbered := by
  have size : (g.attach name m ends).modules.size = g.modules.size + 1 := NameMap.size_insert hnew
  constructor
  · intro x hx
    rw [size]
    cases mem_entries_attach.mp hx with
    | inl new =>
        subst new
        exact Nat.lt_succ_self _
    | inr old => exact Nat.lt_succ_of_lt (h.bounded x old.1)
  · have apart {x y : String × Module} (hx : x = (name, g.attached m ends))
        (hy : y ∈ g.modules.entries) : x.2.id ≠ y.2.id := by
      intro same
      have bound := h.bounded y hy
      rw [← same, hx] at bound
      exact Nat.lt_irrefl _ bound
    intro x hx y hy same
    cases mem_entries_attach.mp hx with
    | inl newx =>
        cases mem_entries_attach.mp hy with
        | inl newy => exact newx.trans newy.symm
        | inr oldy => exact absurd same (apart newx oldy.1)
    | inr oldx =>
        cases mem_entries_attach.mp hy with
        | inl newy => exact absurd same.symm (apart newy oldx.1)
        | inr oldy => exact h.distinct x oldx.1 y oldy.1 same

theorem Numbered.attachAll {β : Type} {name : β → String} {new : Graph α → β → Module}
    {ends : β → List (Connection α)} {g : Graph α} (h : g.Numbered) {l : List β}
    (hl : (l.map name).Nodup) (hnew : ∀ x ∈ l, name x ∉ g.modules.keys) :
    (Graph.attachAll name new ends g l).Numbered :=
  attachAll_keeps (P := Numbered) hl hnew (fun _ _ _ hnewx hg => hg.attach hnewx _ _) h

theorem Numbered.mapValues {g : Graph α} (h : g.Numbered) {f : String → Module → Module}
    (hf : ∀ name m, (f name m).id = m.id) :
    Numbered { g with modules := g.modules.mapValues f } := by
  constructor
  · intro x hx
    obtain ⟨m, hm, hx⟩ := NameMap.mem_mapValues.mp hx
    rw [hx, hf, NameMap.size_mapValues]
    exact h.bounded _ hm
  · intro x hx y hy same
    obtain ⟨m, hm, hxm⟩ := NameMap.mem_mapValues.mp hx
    obtain ⟨n, hn, hyn⟩ := NameMap.mem_mapValues.mp hy
    rw [hxm, hyn, hf, hf] at same
    obtain ⟨name, value⟩ := Prod.mk.inj (h.distinct _ hm _ hn same)
    apply Prod.ext name
    rw [hxm, hyn, name, value]

theorem numbered_empty : Numbered (empty : Graph α) :=
  ⟨fun _ hx => absurd hx List.not_mem_nil, fun _ hx => absurd hx List.not_mem_nil⟩

/-! ### Interfaces by name -/

theorem FacesSorted.attach_nil {g : Graph α} (h : g.FacesSorted) (hg : g.Coherent) (name : String)
    (m : Module) : (g.attach name m []).FacesSorted := by
  intro A f hf chain
  by_cases hA : A = name
  · subst hA
    rw [face?_attach_self] at hf
    cases hf
    exact pairwise_sortedFamily [] chain
  · rw [hg.face?_attach_of_ne hA] at hf
    exact h A f hf chain

theorem FacesSorted.linkFresh {g : Graph α} (h : g.FacesSorted) (fresh : String → Bool) :
    (g.linkFresh fresh).FacesSorted := by
  intro name f hf
  rw [face?_linkFresh] at hf
  exact h name f hf

theorem FacesSorted.juxtapose {g incoming : Graph α} (h : g.FacesSorted) (hi : incoming.FacesSorted)
    (hg : g.Coherent) (hc : incoming.Coherent) (apart : ¬ ∃ name, g.SharedName incoming name) :
    (g.juxtapose incoming).FacesSorted := by
  intro name f hf
  rw [face?_juxtapose hg hc hi apart, Option.or_eq_some_iff] at hf
  cases hf with
  | inl new => exact hi name f new
  | inr old => exact h name f old.2

/-- Taking ends off the interfaces, or describing modules, keeps the rest in its order. -/
theorem FacesSorted.mapValues {g : Graph α} (h : g.FacesSorted) {f : String → Module → Module}
    (hf : ∀ name m chain, ((f name m).family chain).Sublist (m.family chain)) :
    FacesSorted { g with modules := g.modules.mapValues f } := by
  intro name face hface chain
  unfold face? module? at hface
  rw [NameMap.find?_mapValues, Option.map_map, Option.map_eq_some_iff] at hface
  obtain ⟨m, hm, rfl⟩ := hface
  have sorted := h name (g.face m) (congrArg (Option.map g.face) hm) chain
  exact sorted.sublist ((hf name m chain).filterMap g.shown)

/-! ### Graphs in order -/

structure Orderly (g : Graph α) : Prop where
  consistent : g.Consistent
  sorted : g.FacesSorted
  numbered : g.Numbered

theorem orderly_empty : Orderly (empty : Graph α) :=
  ⟨sound_empty.consistent, nofun, numbered_empty⟩

theorem Orderly.attach_nil {g : Graph α} (h : g.Orderly) {name : String}
    (hnew : name ∉ g.modules.keys) (m : Module) : (g.attach name m []).Orderly :=
  ⟨h.consistent.attach_nil hnew m, h.sorted.attach_nil h.consistent.coherent name m,
    h.numbered.attach hnew m []⟩

theorem Orderly.trim {g : Graph α} (h : g.Orderly) : g.trim.Orderly where
  consistent := h.consistent.trim
  sorted := h.sorted.mapValues fun name m chain => by
    cases chain <;> exact List.filter_sublist
  numbered := h.numbered.mapValues fun _ _ => rfl

theorem lists_mapValues {g : Graph α} {f : String → Module → Module}
    (hf : ∀ name m chain, (f name m).family chain = m.family chain) {chain : Bool} {A : String}
    {c : ConnectionId} :
    Lists { g with modules := g.modules.mapValues f } chain A c ↔ g.Lists chain A c := by
  simp only [Lists, NameMap.mem_mapValues]
  constructor
  · rintro ⟨-, ⟨m, hm, rfl⟩, hc⟩
    rw [hf] at hc
    exact ⟨m, hm, hc⟩
  · rintro ⟨m, hm, hc⟩
    exact ⟨f A m, ⟨m, hm, rfl⟩, (hf A m chain).symm ▸ hc⟩

theorem Consistent.mapValues {g : Graph α} (h : g.Consistent) {f : String → Module → Module}
    (hf : ∀ name m chain, (f name m).family chain = m.family chain) :
    Consistent { g with modules := g.modules.mapValues f } where
  coherent :=
    { listed := fun hc => h.coherent.listed ((lists_mapValues hf).mp hc)
      nodup := fun chain hm => by
        obtain ⟨m, hold, rfl⟩ := NameMap.mem_mapValues.mp hm
        rw [hf]
        exact h.coherent.nodup chain hold }
  typed _ _ _ _ _ _ _ hF hne hA hB he hf' hn :=
    h.typed hF hne ((lists_mapValues hf).mp hA) ((lists_mapValues hf).mp hB) he hf' hn

theorem Orderly.modifyModule {g : Graph α} (h : g.Orderly) (name : String) {f : Module → Module}
    (hf : Module.Descriptive f) : (g.modifyModule name f).Orderly := by
  have family (key : String) (m : Module) (chain : Bool) :
      (if key == name then f m else m).family chain = m.family chain := by
    split
    · exact hf.family m chain
    · rfl
  have id (key : String) (m : Module) : (if key == name then f m else m).id = m.id := by
    split
    · exact hf.id m
    · rfl
  exact ⟨h.consistent.mapValues family,
    h.sorted.mapValues fun key m chain => (family key m chain).symm ▸ List.Sublist.refl _,
    h.numbered.mapValues id⟩

theorem orderly_ofConnections {ends : List (Connection α)} {g : Graph α}
    (h : ofConnections ends = .ok g) : g.Orderly := by
  have consistent := consistent_ofConnections h
  obtain ⟨-, rfl⟩ := matchFresh_eq_ok h
  have sorted : (gather ends).FacesSorted := facesSorted_of_face fun _ => rfl
  have numbered : (gather ends).Numbered := by
    rw [gather_eq]
    exact numbered_empty.attachAll (NameMap.keys_nodup (byOwner ends)) fun _ _ => List.not_mem_nil
  exact ⟨consistent, sorted.linkFresh _, ⟨numbered.bounded, numbered.distinct⟩⟩

theorem Orderly.merge {g incoming g' : Graph α} (hg : g.Orderly) (hi : incoming.Orderly)
    (h : g.merge incoming = .ok g') : g'.Orderly := by
  have consistent := hg.consistent.merge hi.consistent h
  obtain ⟨hshared, hm⟩ := merge_eq_ok h
  obtain ⟨-, rfl⟩ := matchFresh_eq_ok hm
  have sorted := hg.sorted.juxtapose hi.sorted hg.consistent.coherent hi.consistent.coherent
    (sharedModule?_eq_none.mp hshared)
  have numbered : (g.juxtapose incoming).Numbered := by
    rw [juxtapose_eq]
    exact hg.numbered.attachAll incoming.modules.keys_nodup (not_mem_keys_of_apart hshared)
  exact ⟨consistent, sorted.linkFresh _, ⟨numbered.bounded, numbered.distinct⟩⟩

/-! ### Kept graphs -/

namespace Kept

variable [Scalar α]

/-- The kept graphs that the operations build from any ends, with modules described as one likes. -/
inductive Made : Kept α → Prop
  | empty : Made Kept.empty
  | assembled {ends : List (Connection α)} {s : Kept α} (h : ofConnections ends = .ok s) : Made s
  | added {s s' : Kept α} {name kind : String} {id : ModuleId} (hs : Made s)
      (h : s.addModule name kind = .ok (id, s')) : Made s'
  | described {s : Kept α} {f : Module → Module} (hs : Made s) (name : String)
      (hf : Module.Descriptive f) : Made (s.modifyModule name f)
  | merged {s incoming : Kept α} (hs : Made s) (hi : Made incoming) :
      Made ((merge incoming.graph).apply s).2
  | trimmed {s : Kept α} (hs : Made s) : Made s.trim

theorem Made.orderly {s : Kept α} (h : s.Made) : s.graph.Orderly := by
  induction h with
  | empty => exact orderly_empty
  | @assembled ends s h =>
      obtain ⟨g, hg, rfl⟩ := map_eq_ok h
      exact orderly_ofConnections hg
  | added _ h ih =>
      obtain ⟨⟨id, g⟩, hg, h⟩ := map_eq_ok h
      cases h
      obtain ⟨hnew, rfl⟩ := addModule_eq hg
      exact ih.attach_nil hnew _
  | described _ name hf ih => exact ih.modifyModule name hf
  | @merged s incoming _ _ ihs ihi =>
      rw [apply_merge ihs.consistent ihi.consistent]
      cases hm : s.graph.merge incoming.graph with
      | error f => exact ihs
      | ok g => exact ihs.merge ihi hm
  | trimmed _ ih => exact ih.trim

theorem Reachable.made {s : Kept α} (h : s.Reachable) : s.Made := by
  induction h with
  | empty => exact .empty
  | assembled h => exact .assembled h
  | added _ h ih => exact ih.added h
  | merged _ _ ihs ihi => exact ihs.merged ihi
  | trimmed _ ih => exact ih.trimmed

end Kept
end Graph
end HardwareLinker
