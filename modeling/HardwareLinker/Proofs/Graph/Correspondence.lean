import Mathlib.Algebra.Group.End
import Mathlib.Data.List.NodupEquivFin
import Mathlib.Data.List.Pairwise
import HardwareLinker.Proofs.Graph.Converged

/-!
Converged graphs that show the same faces. Ends at the same place of an interface correspond, which
is a renaming of handles. Where every channel name has at most one end of either direction, the
partner of a channel is the one end that complements it, and the links of a chain are those that
threading makes, so corresponding ends have corresponding partners, in whatever order the graphs
were put together.
-/

namespace HardwareLinker.Graph

variable {α : Type} {ρ : ConnectionId → ConnectionId}

/-! ### Lists with the same members -/

/-- Lists of the same members, each once, are images of each other place by place. -/
theorem exists_bijective_map {β : Type} [DecidableEq β] {l l' : List β} (hl : l.Nodup)
    (hl' : l'.Nodup) (h : ∀ x, x ∈ l ↔ x ∈ l') :
    ∃ ρ : β → β, Function.Bijective ρ ∧ l.map ρ = l' ∧ ∀ x, x ∉ l → ρ x = x := by
  have length : l.length = l'.length :=
    ((List.perm_ext_iff_of_nodup hl hl').mpr h).length_eq
  let moved : Equiv.Perm { x // x ∈ l } := (hl.getEquiv l).symm.trans <|
    (finCongr length).trans <| (hl'.getEquiv l').trans <|
      Equiv.subtypeEquivRight fun x => (h x).symm
  refine ⟨moved.ofSubtype, moved.ofSubtype.bijective, ?_, ?_⟩
  · apply List.ext_getElem
    · rw [List.length_map, length]
    · intro i hi hi'
      rw [List.getElem_map, Equiv.Perm.ofSubtype_apply_of_mem _ (List.getElem_mem _)]
      have place : l.idxOf l[i] = i := hl.idxOf_getElem i _
      change l'.get ⟨l.idxOf l[i], place.symm ▸ hi'⟩ = l'.get ⟨i, hi'⟩
      exact congrArg l'.get (Fin.ext place)
  · intro x hx
    exact Equiv.Perm.ofSubtype_apply_of_not_mem _ hx

theorem eq_of_mem_zip {β γ δ : Type} {f : β → δ} {f' : γ → δ} {l : List β} {l' : List γ}
    (h : l.map f = l'.map f') {x : β} {x' : γ} (hm : (x, x') ∈ l.zip l') : f x = f' x' := by
  induction l generalizing l' with
  | nil => cases hm
  | cons y rest ih =>
      cases l' with
      | nil => cases hm
      | cons y' rest' =>
          obtain ⟨hy, hrest⟩ := List.cons.inj h
          cases List.mem_cons.mp hm with
          | inl he =>
              cases he
              exact hy
          | inr hm => exact ih hrest hm

/-! ### Places of interfaces -/

/-- The same modules show the same free ends under other handles. -/
structure Relabelled (ρ : ConnectionId → ConnectionId) (g g' : Graph α) : Prop where
  bijective : Function.Bijective ρ
  modules : SameModules ρ g g'
  shown : ∀ c, g'.shown (ρ c) = g.shown c

def faces (g : Graph α) : NameMap (Face α) := g.modules.mapValues fun _ m => g.face m

theorem faces_eq {g g' : Graph α} (h : ∀ name, g.face? name = g'.face? name) :
    g.faces = g'.faces := by
  have found (g : Graph α) (name : String) : g.faces.find? name = g.face? name := by
    apply Option.ext
    intro f
    rw [NameMap.find?_eq_some, faces, NameMap.mem_mapValues]
    simp only [face?, module?, Option.map_eq_some_iff, NameMap.find?_eq_some, eq_comm (a := f)]
  apply NameMap.ext_find?
  intro name
  rw [found, found, h]

theorem Coherent.map_shown {g : Graph α} (hg : g.Coherent) {name : String} {m : Module}
    (hm : (name, m) ∈ g.modules.entries) (chain : Bool) :
    (m.family chain).map g.shown = ((g.face m).ends chain).map some := by
  have all (l : List ConnectionId) (hl : ∀ c ∈ l, ∃ x, g.shown c = some x) :
      l.map g.shown = (l.filterMap g.shown).map some := by
    induction l with
    | nil => rfl
    | cons c rest ih =>
        obtain ⟨⟨x, hx⟩, hrest⟩ := List.forall_mem_cons.mp hl
        rw [List.map_cons, List.filterMap_cons, hx, ih hrest]
        rfl
  apply all
  intro c hc
  obtain ⟨e, he, -⟩ := hg.listed ⟨m, hm, hc⟩
  exact ⟨e.unmatch, by rw [shown, he]; rfl⟩

def Face.all (f : Face α) : List (Connection α) := f.ends false ++ f.ends true

theorem Coherent.map_shown_ends {g : Graph α} (hg : g.Coherent) {x : String × Module}
    (hx : x ∈ g.modules.entries) : x.2.ends.map g.shown = (g.face x.2).all.map some := by
  have channels := hg.map_shown hx false
  have chains := hg.map_shown hx true
  rw [Face.all, List.map_append, ← channels, ← chains]
  exact List.map_append

/-- All listed ends, module by module. -/
def handles (g : Graph α) : List ConnectionId := g.modules.values.flatMap Module.ends

theorem Coherent.map_shown_handles {g : Graph α} (hg : g.Coherent) :
    g.handles.map g.shown = (g.faces.entries.map fun x => x.2.all.map some).flatten := by
  rw [handles, List.flatMap_def, List.map_flatten, NameMap.values, List.map_map, List.map_map,
    faces, NameMap.mapValues, List.map_map]
  congr 1
  apply List.map_congr_left
  intro x hx
  exact hg.map_shown_ends hx

/-- The table holds the listed ends and no others. -/
theorem mem_handles_iff {g : Graph α} (hg : g.Coherent) (hc : g.Complete) {c : ConnectionId} :
    c ∈ g.handles ↔ c.slot < g.connections.size := by
  rw [handles, mem_flatMap_ends]
  constructor
  · intro ⟨chain, A, h⟩
    obtain ⟨e, he, -⟩ := hg.listed h
    exact (Array.getElem?_eq_some_iff.mp he).1
  · intro h
    exact hc (Array.getElem?_eq_getElem h)

theorem length_handles {g : Graph α} (hg : g.Coherent) (hc : g.Complete) :
    g.handles.length = g.connections.size := by
  have perm : (g.handles.map ConnectionId.slot).Perm (List.range g.connections.size) := by
    refine (List.perm_ext_iff_of_nodup ?_ List.nodup_range).mpr ?_
    · exact hg.ends_nodup.map fun a b h => ConnectionId.slot_inj.mp h
    · intro i
      rw [List.mem_range, List.mem_map]
      constructor
      · intro ⟨c, hm, hi⟩
        exact hi ▸ (mem_handles_iff hg hc).mp hm
      · intro hi
        exact ⟨⟨i⟩, (mem_handles_iff hg hc).mpr hi, rfl⟩
  simpa using perm.length_eq

/-- Modules that show the same, the one with the ends of the other renamed. -/
theorem rename_of_face_eq {g g' : Graph α} (hg : g.Coherent) (hg' : g'.Coherent)
    {x x' : String × Module} (hx : x ∈ g.modules.entries) (hx' : x' ∈ g'.modules.entries)
    (face : g.face x.2 = g'.face x'.2) (ends : x.2.ends.map ρ = x'.2.ends) :
    x'.2 = x.2.rename ρ x'.2.id := by
  have length : (x.2.channels.map ρ).length = x'.2.channels.length := by
    have h := congrArg List.length (hg.map_shown hx false)
    have h' := congrArg List.length (hg'.map_shown hx' false)
    rw [List.length_map, List.length_map, face] at h
    rw [List.length_map, List.length_map, ← h] at h'
    rw [List.length_map]
    exact h'.symm
  obtain ⟨channels, chains⟩ := List.append_inj (List.map_append.symm.trans ends) length
  obtain ⟨name, id, kind, _, _, attributes, artifacts⟩ := x'
  obtain ⟨hkind, hattributes, hartifacts, -⟩ := Face.mk.inj face
  unfold Module.rename
  rw [channels, chains, hkind, hattributes, hartifacts]

theorem sameModules_of_image {g g' : Graph α} (hg : g.Coherent) (hg' : g'.Coherent)
    (h : g.faces = g'.faces) (image : g.handles.map ρ = g'.handles) : SameModules ρ g g' := by
  have rows : g.modules.entries.map (fun x => (x.1, g.face x.2)) =
      g'.modules.entries.map fun x => (x.1, g'.face x.2) := congrArg NameMap.entries h
  have lengths {g : Graph α} (hg : g.Coherent) : g.modules.entries.map (·.2.ends.length) =
      (g.modules.entries.map fun x => (x.1, g.face x.2)).map (·.2.all.length) := by
    rw [List.map_map]
    apply List.map_congr_left
    intro x hx
    simpa using congrArg List.length (hg.map_shown_ends hx)
  have blocks : g.modules.entries.map (·.2.ends.map ρ) = g'.modules.entries.map (·.2.ends) := by
    apply List.eq_iff_flatten_eq.mpr
    constructor
    · simpa [handles, NameMap.values, List.flatMap_def, List.map_flatten, Function.comp_def]
        using image
    · simp only [List.map_map, Function.comp_def, List.length_map]
      rw [lengths hg, lengths hg', rows]
  refine List.forall₂_iff_zip.mpr ⟨?_, ?_⟩
  · simpa using congrArg List.length rows
  · intro x x' hm
    obtain ⟨hx, hx'⟩ := List.of_mem_zip hm
    obtain ⟨name, face⟩ := Prod.ext_iff.mp (eq_of_mem_zip rows hm)
    exact ⟨name.symm, rename_of_face_eq hg hg' hx hx' face (eq_of_mem_zip blocks hm)⟩

/-- Graphs with the same faces differ in their handles only. -/
theorem exists_relabelled {g g' : Graph α} (hg : g.Coherent) (hc : g.Complete)
    (hg' : g'.Coherent) (hc' : g'.Complete) (h : ∀ name, g.face? name = g'.face? name) :
    ∃ ρ, Relabelled ρ g g' := by
  have faces := faces_eq h
  have shown : g.handles.map g.shown = g'.handles.map g'.shown := by
    rw [hg.map_shown_handles, hg'.map_shown_handles, faces]
  have size : g.connections.size = g'.connections.size := by
    have := congrArg List.length shown
    rwa [List.length_map, List.length_map, length_handles hg hc, length_handles hg' hc'] at this
  obtain ⟨ρ, bijective, image, fixed⟩ := exists_bijective_map hg.ends_nodup hg'.ends_nodup
    fun c => (mem_handles_iff hg hc).trans (size ▸ (mem_handles_iff hg' hc').symm)
  refine ⟨ρ, bijective, sameModules_of_image hg hg' faces image, ?_⟩
  intro c
  by_cases hm : c ∈ g.handles
  · have pointwise : g.handles.map (g'.shown ∘ ρ) = g.handles.map g.shown := by
      rw [shown, ← List.map_map]
      exact congrArg (List.map g'.shown) image
    exact List.map_inj_left.mp pointwise c hm
  · have none {g : Graph α} (h : ¬ c.slot < g.connections.size) : g.shown c = none := by
      rw [shown_eq_freed, Table.freed_getElem?, Array.getElem?_eq_none (Nat.le_of_not_lt h)]
      rfl
    have hout := mt (mem_handles_iff hg hc).mpr hm
    rw [fixed c hm, none hout, none (size ▸ hout)]

/-! ### Corresponding ends -/

theorem shown_eq_some {g : Graph α} {c : ConnectionId} {x : Connection α} :
    g.shown c = some x ↔ ∃ e, g.connection? c = some e ∧ e.unmatch = x :=
  Option.map_eq_some_iff

/-- An end and the one that corresponds to it are equal up to their match state. -/
theorem Relabelled.connection? {g g' : Graph α} (h : g.Relabelled ρ g') {c : ConnectionId}
    {e : Connection α} (he : g.connection? c = some e) :
    ∃ e', g'.connection? (ρ c) = some e' ∧ e'.unmatch = e.unmatch :=
  shown_eq_some.mp ((h.shown c).trans (shown_eq_some.mpr ⟨e, he, rfl⟩))

theorem Relabelled.lists {g g' : Graph α} (h : g.Relabelled ρ g') {chain : Bool} {A : String}
    {c : ConnectionId} : g'.Lists chain A (ρ c) ↔ g.Lists chain A c := by
  have rows : g'.modules.entries.map (fun x => (x.1, x.2.family chain)) =
      g.modules.entries.map fun x => (x.1, (x.2.family chain).map ρ) :=
    h.modules.map_entries fun name m id => by rw [family_rename]
  have listed (g : Graph α) (f : Module → List ConnectionId) (c : ConnectionId) :
      (∃ m, (A, m) ∈ g.modules.entries ∧ c ∈ f m) ↔
        ∃ l, (A, l) ∈ g.modules.entries.map (fun x => (x.1, f x.2)) ∧ c ∈ l := by
    simp only [List.mem_map, Prod.mk.injEq, Prod.exists]
    constructor
    · intro ⟨m, hm, hc⟩
      exact ⟨f m, ⟨A, m, hm, rfl, rfl⟩, hc⟩
    · intro ⟨l, ⟨_, m, hm, hA, hl⟩, hc⟩
      exact ⟨m, hA ▸ hm, hl ▸ hc⟩
  unfold Lists
  rw [listed g' (·.family chain) (ρ c), rows, ← listed g (fun m => (m.family chain).map ρ) (ρ c)]
  simp only [List.mem_map_of_injective h.bijective.injective]

theorem Relabelled.chainEnds {g g' : Graph α} (h : g.Relabelled ρ g') (chain : String) :
    g'.chainEnds chain = (g.chainEnds chain).map (·.map ρ) := by
  have named (g : Graph α) (c : ConnectionId) : ((g.connection? c).any fun e => e.name == chain) =
      (g.shown c).any fun e => e.name == chain := by
    rw [Graph.shown, Option.any_map]
    rfl
  have rows : g'.modules.values.map (g'.endsOn chain) =
      (g.modules.values.map (g.endsOn chain)).map (·.map ρ) := by
    rw [NameMap.values, NameMap.values, List.map_map, List.map_map, List.map_map]
    apply h.modules.map_entries
    intro name m id
    simp only [Function.comp_apply, endsOn, Module.rename, List.filter_map, named]
    congr 1
    apply List.filter_congr
    intro c _
    rw [Function.comp_apply, h.shown]
  rw [chainEnds_eq, chainEnds_eq, rows, List.filter_map]
  congr 1
  apply List.filter_congr
  intro l _
  simp

/-! ### Channels between two points -/

/-- Every channel name has at most one end of either direction. -/
def PointToPoint (ends : List (Connection α)) : Prop :=
  ∀ name kind, kind.isChain = false → ends.countP (fun e => e.name == name && e.kind == kind) ≤ 1

theorem pointToPoint_of_nodup {ends : List (Connection α)}
    (h : ((ends.filter (!·.kind.isChain)).map fun e => (e.name, e.kind)).Nodup) :
    PointToPoint ends := by
  intro name kind hk
  have count : ends.countP (fun e => e.name == name && e.kind == kind) =
      ((ends.filter (!·.kind.isChain)).map fun e => (e.name, e.kind)).count (name, kind) := by
    rw [List.count, List.countP_map, List.countP_filter]
    apply List.countP_congr
    intro e _
    simp only [Function.comp_apply, Bool.and_eq_true, beq_iff_eq, Bool.not_eq_true', Prod.mk.injEq]
    constructor
    · intro h
      exact ⟨h, h.2 ▸ hk⟩
    · exact And.left
  rw [count]
  exact List.nodup_iff_count_le_one.mp h (name, kind)

/-- Not two channels of one name and direction. -/
def Distinct (e f : Connection α) : Prop :=
  ¬ (e.kind.isChain = false ∧ e.name = f.name ∧ e.kind = f.kind)

instance : Std.Symm (@Distinct α) :=
  ⟨fun _ _ h ⟨hchain, hname, hkind⟩ => h ⟨hkind ▸ hchain, hname.symm, hkind.symm⟩⟩

theorem pairwise_distinct_sortedFamily {ends : List (Connection α)} (h : ends.Pairwise Distinct)
    (chain : Bool) : (sortedFamily ends chain).Pairwise Distinct := by
  unfold sortedFamily
  rw [List.pairwise_map]
  change List.Pairwise Distinct _
  rw [(List.mergeSort_perm _ _).pairwise_iff (Std.Symm.symm _ _)]
  exact h.filter _

theorem PointToPoint.pairwise {ends : List (Connection α)} (h : PointToPoint ends) :
    ends.Pairwise Distinct := by
  rw [List.pairwise_iff_forall_sublist]
  intro e f hsub ⟨hchain, hname, hkind⟩
  have two := hsub.countP_le (p := fun x => x.name == f.name && x.kind == f.kind)
  have one := h f.name f.kind (hkind ▸ hchain)
  simp [hname, hkind] at two
  omega

/-- Listed channels of one name and direction are the same. -/
def ChannelsDistinct (g : Graph α) : Prop :=
  ∀ ⦃A B : String⦄ ⦃c d : ConnectionId⦄ ⦃e f : Connection α⦄, g.Lists false A c →
    g.Lists false B d → g.connection? c = some e → g.connection? d = some f →
    e.name = f.name → e.kind = f.kind → c = d

theorem face_eq_plainFace {g : Graph α} {ends : List (Connection α)}
    (hface : ∀ name, g.face? name = (gather ends).face? name) {name : String} {f : Face α}
    (hf : g.face? name = some f) : f = plainFace (ownedBy name ends) := by
  rw [hface, face?_gather] at hf
  split at hf
  · cases hf
  · exact (Option.some.inj hf).symm

/-- An interface shows the ends of its module, sorted; so its places differ as these do. -/
theorem PointToPoint.distinct_places {ends : List (Connection α)} (h : PointToPoint ends)
    {g : Graph α} (hg : g.Coherent) (hface : ∀ name, g.face? name = (gather ends).face? name)
    {A : String} {c d : ConnectionId} {x y : Connection α} (hc : g.Lists false A c)
    (hd : g.Lists false A d) (hne : c ≠ d) (hx : g.shown c = some x) (hy : g.shown d = some y) :
    Distinct x y := by
  obtain ⟨m, hm, hcm⟩ := hc
  obtain ⟨m', hm', hdm⟩ := hd
  cases NameMap.value_unique _ hm hm'
  have places : ((m.family false).map g.shown).Pairwise fun a b =>
      ∀ x y, a = some x → b = some y → Distinct x y := by
    rw [hg.map_shown hm, face_eq_plainFace hface (congrArg _ (NameMap.find?_eq_some.mpr hm)),
      List.pairwise_map]
    refine (pairwise_distinct_sortedFamily (h.pairwise.filter _) false).imp ?_
    intro a b hab x y hx hy
    cases hx
    cases hy
    exact hab
  rw [List.pairwise_map] at places
  have : Std.Symm fun a b : ConnectionId =>
      ∀ x y, g.shown a = some x → g.shown b = some y → Distinct x y :=
    ⟨fun a b hab x y hx hy => Std.Symm.symm _ _ (hab y x hy hx)⟩
  exact places.forall hcm hdm hne x y hx hy

/-- A listed channel was announced by an end of its module. -/
theorem exists_announced {ends : List (Connection α)} {g : Graph α}
    (hface : ∀ name, g.face? name = (gather ends).face? name) {A : String} {c : ConnectionId}
    {e : Connection α} (hc : g.Lists false A c) (he : g.connection? c = some e) :
    ∃ x ∈ ends, x.owner = A ∧ x.unmatch = e.unmatch := by
  obtain ⟨p, hp, hx⟩ := mem_face.mpr ⟨c, e, hc, he, rfl⟩
  rw [face_eq_plainFace hface hp] at hx
  obtain ⟨x, hx, -, hfree⟩ := mem_sortedFamily.mp hx
  obtain ⟨hx, howner⟩ := List.mem_filter.mp hx
  exact ⟨x, hx, beq_iff_eq.mp howner, hfree⟩

theorem PointToPoint.channelsDistinct {ends : List (Connection α)} (h : PointToPoint ends)
    {g : Graph α} (hg : g.Coherent) (hface : ∀ name, g.face? name = (gather ends).face? name) :
    g.ChannelsDistinct := by
  intro A B c d e f hc hd he hf hname hkind
  by_contra hne
  suffices distinct : Distinct e.unmatch f.unmatch from
    distinct ⟨(hg.listed_on_owner hc he).2.1, hname, hkind⟩
  by_cases hAB : A = B
  · subst hAB
    exact h.distinct_places hg hface hc hd hne (shown_eq_some.mpr ⟨e, he, rfl⟩)
      (shown_eq_some.mpr ⟨f, hf, rfl⟩)
  · obtain ⟨x, hx, hxA, hxe⟩ := exists_announced hface hc he
    obtain ⟨y, hy, hyB, hyf⟩ := exists_announced hface hd hf
    have hxy : x ≠ y := by
      intro same
      exact hAB (hxA.symm.trans (same ▸ hyB))
    have distinct : Distinct x y := h.pairwise.forall hx hy hxy
    change Distinct x.unmatch y.unmatch at distinct
    rwa [hxe, hyf] at distinct

theorem kind_eq_of_complements {a b b' : Connection.Kind} (ha : a.isChain = false)
    (h : a.complements b = true) (h' : a.complements b' = true) : b = b' := by
  cases a <;> cases b <;> cases b' <;> revert ha h h' <;> decide

/-- A matched channel has the one end for its partner that complements it. -/
theorem ChannelsDistinct.partner_eq {g : Graph α} (h : g.ChannelsDistinct) (hg : g.Sound)
    {A B : String} {c p q : ConnectionId} {e f : Connection α} (hc : g.Lists false A c)
    (he : g.connection? c = some e) (hp : g.Lists false B p) (hf : g.connection? p = some f)
    (hname : e.name = f.name) (hkind : e.kind.complements f.kind = true)
    (hq : e.partner = some q) : q = p := by
  obtain ⟨⟨chain, A', B', hA, hB, -⟩, f', hf', -, hname', hkind'⟩ := hg.partners he hq
  obtain ⟨rfl, rfl⟩ := hg.coherent.owner_unique hc hA
  have channel := (hg.coherent.listed_on_owner hc he).2.1
  exact h hB hp hf' hf (hname'.symm.trans hname) (kind_eq_of_complements channel hkind' hkind)

/-- Channels that complement each other across modules are partners. -/
theorem Converged.partner_channel {g : Graph α} (hg : g.Converged) (distinct : g.ChannelsDistinct)
    {A : String} {c p : ConnectionId} {e : Connection α} (hc : g.Lists false A c)
    (he : g.connection? c = some e) :
    e.partner = some p ↔ ∃ B x, A ≠ B ∧ g.Lists false B p ∧ g.shown p = some x ∧
      e.name = x.name ∧ e.kind.complements x.kind = true := by
  constructor
  · intro hp
    obtain ⟨⟨chain, A', B, hA, hB, hne⟩, f, hf, -, hname, hkind⟩ := hg.sound.partners he hp
    obtain ⟨rfl, rfl⟩ := hg.sound.coherent.owner_unique hc hA
    exact ⟨B, f.unmatch, hne rfl, hB, shown_eq_some.mpr ⟨f, hf, rfl⟩, hname, hkind⟩
  · intro ⟨B, x, hne, hp, hx, hname, hkind⟩
    obtain ⟨f, hf, rfl⟩ := shown_eq_some.mp hx
    have partner {c : ConnectionId} {e : Connection α} (he : g.connection? c = some e)
        (hm : e.matched = true) : ∃ q, e.partner = some q :=
      Option.isSome_iff_exists.mp ((hg.sound.linked.matched_iff he).mp hm)
    -- They cannot be linked any more, so one of them is matched, and there is only the other one.
    by_cases hm : e.matched = true
    · obtain ⟨q, hq⟩ := partner he hm
      exact distinct.partner_eq hg.sound hc he hp hf hname hkind hq ▸ hq
    · by_cases hm' : f.matched = true
      · obtain ⟨q, hq⟩ := partner hf hm'
        have back : q = c := distinct.partner_eq hg.sound hp hf hc he hname.symm
          ((Connection.Kind.complements_comm ..).trans hkind) hq
        have hpc : g.partner? p = some c := partner?_eq_some.mpr ⟨f, hf, back ▸ hq⟩
        obtain ⟨e', he', hep⟩ := partner?_eq_some.mp (hg.sound.partner_symm hpc)
        exact Option.some.inj (he'.symm.trans he) ▸ hep
      · have free := Table.linkable_iff.mpr ⟨e, f, he, hf, hname, eq_false_of_ne_true hm,
          eq_false_of_ne_true hm', hkind⟩
        exact absurd (free.symm.trans (hg.exhausted hne hc hp)) Bool.true_eq_false.mp

/-! ### Corresponding partners -/

theorem eq_rename {e e' : Connection α} (h : e'.unmatch = e.unmatch)
    (matched : e'.matched = e.matched) (partner : e'.partner = e.partner.map ρ) :
    e' = e.rename ρ := by
  cases e
  cases e'
  simp only [Connection.unmatch, Connection.mk.injEq] at h
  simp_all [Connection.rename]

/-- Chains are threaded alike, so corresponding chain ends correspond with their partners. -/
theorem Relabelled.rename_chain {g g' : Graph α} (h : g.Relabelled ρ g') (hg : g.Converged)
    (hg' : g'.Converged) {A : String} {c : ConnectionId} {e : Connection α}
    (hc : g.Lists true A c) (he : g.connection? c = some e) :
    g'.connection? (ρ c) = some (e.rename ρ) := by
  have hm : c ∈ (g.chainEnds e.name).flatten := mem_flatten_chainEnds.mpr ⟨⟨A, hc⟩, e, he, rfl⟩
  have hm' : ρ c ∈ (g'.chainEnds e.name).flatten := by
    rw [h.chainEnds, ← List.map_flatten]
    exact List.mem_map_of_mem hm
  have alike := Table.Mirrors.threadChain (h.bijective.injective.injOn)
    (fun d _ => h.shown d) c hm
  rw [← h.chainEnds, hg'.threaded hm', hg.threaded hm, he] at alike
  exact alike

/-- Corresponding channels have corresponding partners, because those are the only ones. -/
theorem Relabelled.rename_channel {g g' : Graph α} (h : g.Relabelled ρ g') (hg : g.Converged)
    (hg' : g'.Converged) (distinct : g.ChannelsDistinct) (distinct' : g'.ChannelsDistinct)
    {A : String} {c : ConnectionId} {e : Connection α} (hc : g.Lists false A c)
    (he : g.connection? c = some e) : g'.connection? (ρ c) = some (e.rename ρ) := by
  obtain ⟨e', he', hfree⟩ := h.connection? he
  have hc' : g'.Lists false A (ρ c) := h.lists.mpr hc
  have hname : e'.name = e.name := Connection.name_eq_of_unmatch hfree
  have hkind : e'.kind = e.kind := Connection.kind_eq_of_unmatch hfree
  have partner : e'.partner = e.partner.map ρ := by
    apply Option.ext
    intro q
    obtain ⟨p, rfl⟩ := h.bijective.surjective q
    have same : e.partner.map ρ = some (ρ p) ↔ e.partner = some p := by
      rw [Option.map_eq_some_iff]
      constructor
      · intro ⟨d, hd, hdp⟩
        rw [hd, h.bijective.injective hdp]
      · intro hp
        exact ⟨p, hp, rfl⟩
    rw [same, hg'.partner_channel distinct' hc' he', hg.partner_channel distinct hc he]
    simp only [h.lists, h.shown, hname, hkind]
  have matched : e'.matched = e.matched := by
    rw [Bool.eq_iff_iff, hg'.sound.linked.matched_iff he', hg.sound.linked.matched_iff he, partner,
      Option.isSome_map]
  exact he'.trans (congrArg some (eq_rename hfree matched partner))

/-- Graphs that show the ends of a list between two points, each linked as far as it can be, differ
in their handles only. -/
theorem PointToPoint.exists_renamed {ends : List (Connection α)} (h : PointToPoint ends)
    {g g' : Graph α} (hg : g.Converged) (hg' : g'.Converged)
    (hface : ∀ name, g.face? name = (gather ends).face? name)
    (hface' : ∀ name, g'.face? name = (gather ends).face? name) : ∃ ρ, g.Renamed ρ g' := by
  obtain ⟨ρ, relabelled⟩ := exists_relabelled hg.sound.coherent hg.complete hg'.sound.coherent
    hg'.complete fun name => (hface name).trans (hface' name).symm
  refine ⟨ρ, relabelled.bijective, relabelled.modules, fun c => ?_⟩
  cases he : g.connection? c with
  | none =>
      have := relabelled.shown c
      rw [shown, shown, he] at this
      exact Option.map_eq_none_iff.mp this
  | some e =>
      obtain ⟨chain, A, hc⟩ := hg.complete he
      cases chain with
      | true => exact relabelled.rename_chain hg hg' hc he
      | false =>
          exact relabelled.rename_channel hg hg' (h.channelsDistinct hg.sound.coherent hface)
            (h.channelsDistinct hg'.sound.coherent hface') hc he

end HardwareLinker.Graph
