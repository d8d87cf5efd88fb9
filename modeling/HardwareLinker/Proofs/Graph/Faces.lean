import Mathlib.Data.List.Nodup
import HardwareLinker.Proofs.Graph.Conflicts

/-!
What a graph shows of its modules. The face of a module is its description and its ends in interface
order, free and without handles; linking does not touch it, and putting graphs side by side keeps
the faces of both. A graph that is gathered from ends shows under each name the ends of that owner,
so the faces tell the ends and their owners but not the order in which the owners came.
-/

namespace HardwareLinker.Graph

variable {α : Type}

/-- A module as it shows itself, with the free ends of either family in interface order. -/
structure Face (α : Type) where
  kind : String
  attributes : NameMap String
  artifacts : NameMap (List String)
  ends : Bool → List (Connection α)

/-- A listed end, free. -/
def shown (g : Graph α) (c : ConnectionId) : Option (Connection α) :=
  (g.connection? c).map (·.unmatch)

def face (g : Graph α) (m : Module) : Face α :=
  ⟨m.kind, m.attributes, m.artifacts, fun chain => (m.family chain).filterMap g.shown⟩

def face? (g : Graph α) (name : String) : Option (Face α) := (g.module? name).map g.face

theorem shown_eq_freed (g : Graph α) (c : ConnectionId) :
    g.shown c = (Table.freed g.connections)[c.slot]? := (Table.freed_getElem? _ _).symm

theorem face?_linkFresh (g : Graph α) (fresh : String → Bool) (name : String) :
    (g.linkFresh fresh).face? name = g.face? name := by
  have same : (g.linkFresh fresh).shown = g.shown := by
    funext c
    rw [shown_eq_freed, shown_eq_freed, freed_linkFresh]
  unfold face? face
  rw [same]
  rfl

/-- The ends that a face shows are the listed ones. -/
theorem mem_face {g : Graph α} {name : String} {chain : Bool} {x : Connection α} :
    (∃ f, g.face? name = some f ∧ x ∈ f.ends chain) ↔
      ∃ c e, g.Lists chain name c ∧ g.connection? c = some e ∧ e.unmatch = x := by
  simp only [face?, module?, Option.map_eq_some_iff, NameMap.find?_eq_some, Lists]
  constructor
  · rintro ⟨_, ⟨m, hm, rfl⟩, hx⟩
    obtain ⟨c, hc, hshown⟩ := List.mem_filterMap.mp hx
    obtain ⟨e, he, hfree⟩ := Option.map_eq_some_iff.mp hshown
    exact ⟨c, e, ⟨m, hm, hc⟩, he, hfree⟩
  · rintro ⟨c, e, ⟨m, hm, hc⟩, he, hfree⟩
    refine ⟨g.face m, ⟨m, hm, rfl⟩, List.mem_filterMap.mpr ⟨c, hc, ?_⟩⟩
    rw [shown, he]
    exact congrArg some hfree

theorem mem_keys_iff_face? {g : Graph α} {name : String} :
    name ∈ g.modules.keys ↔ ∃ f, g.face? name = some f := by
  simp [NameMap.mem_keys_iff, face?, module?]

/-! ### Attaching modules -/

/-- The ends of one family by name, free. -/
def sortedFamily (ends : List (Connection α)) (chain : Bool) : List (Connection α) :=
  ((ends.filter (·.kind.isChain == chain)).mergeSort fun a b => a.name ≤ b.name).map (·.unmatch)

/-- The face of a module with these ends. -/
def portrait (m : Module) (ends : List (Connection α)) : Face α :=
  ⟨m.kind, m.attributes, m.artifacts, sortedFamily ends⟩

theorem module?_attach (g : Graph α) (name A : String) (m : Module) (ends : List (Connection α)) :
    (g.attach name m ends).module? A =
      if A = name then some (g.attached m ends) else g.module? A :=
  NameMap.find?_insert g.modules name A _

theorem filterMap_listFamily (chain : Bool) (g : Graph α) (name : String) (m : Module)
    (ends : List (Connection α)) :
    (listFamily chain g.connections.size ends).filterMap (g.attach name m ends).shown =
      sortedFamily ends chain := by
  have numbered (e : Connection α × Nat) (he : e ∈ ends.zipIdx g.connections.size) :
      (g.attach name m ends).shown ⟨e.2⟩ = some e.1.unmatch := by
    obtain ⟨hfirst, hget⟩ := List.mem_zipIdx_iff_le_and_getElem?_sub.mp he
    rw [shown, connection?_attach, if_neg (Nat.not_lt.mpr hfirst), hget]
    rfl
  have kept : ((ends.zipIdx g.connections.size).filter fun e => e.1.kind.isChain == chain).map
      Prod.fst = ends.filter (·.kind.isChain == chain) := by
    rw [show (fun e : Connection α × Nat => e.1.kind.isChain == chain) =
      (fun e : Connection α => e.kind.isChain == chain) ∘ Prod.fst from rfl, ← List.filter_map,
      List.zipIdx_map_fst]
  unfold listFamily sortedFamily
  simp only [List.filterMap_map]
  rw [← kept, ← List.map_mergeSort (r := fun a b : Connection α × Nat => a.1.name ≤ b.1.name)
    fun _ _ _ _ => rfl, List.map_map, ← List.filterMap_eq_map]
  apply List.filterMap_congr
  intro e he
  exact numbered e (List.mem_of_mem_filter (List.mem_mergeSort.mp he))

theorem face?_attach_self (g : Graph α) (name : String) (m : Module) (ends : List (Connection α)) :
    (g.attach name m ends).face? name = some (portrait m ends) := by
  rw [face?, module?_attach, if_pos rfl]
  simp only [Option.map_some, face, family_attached, filterMap_listFamily]
  rfl

theorem Coherent.face?_attach_of_ne {g : Graph α} (hg : g.Coherent) {name A : String}
    (hne : A ≠ name) (m : Module) (ends : List (Connection α)) :
    (g.attach name m ends).face? A = g.face? A := by
  rw [face?, module?_attach, if_neg hne, face?]
  cases hm : g.module? A with
  | none => rfl
  | some n =>
      have old (chain : Bool) : (n.family chain).filterMap (g.attach name m ends).shown =
          (n.family chain).filterMap g.shown := by
        apply List.filterMap_congr
        intro c hc
        obtain ⟨e, he, -⟩ := hg.listed ⟨n, NameMap.find?_eq_some.mp hm, hc⟩
        rw [shown, shown, he, extends_attach.kept he]
      simp only [Option.map_some, face, old]

/-- Each attached module has its own face, and the others keep theirs. -/
theorem face?_attachAll {β : Type} {name : β → String} {new : Graph α → β → Module}
    {ends : β → List (Connection α)} {g : Graph α} {l : List β} (hl : (l.map name).Nodup)
    (hnew : ∀ x ∈ l, name x ∉ g.modules.keys) (hown : ∀ x ∈ l, ∀ e ∈ ends x, e.owner = name x)
    (hg : g.Coherent) {face : β → Face α}
    (hface : ∀ g, ∀ x ∈ l, portrait (new g x) (ends x) = face x) :
    (∀ A, A ∉ l.map name → (attachAll name new ends g l).face? A = g.face? A) ∧
      ∀ x ∈ l, (attachAll name new ends g l).face? (name x) = some (face x) := by
  induction l generalizing g with
  | nil => exact ⟨fun _ _ => rfl, nofun⟩
  | cons x rest ih =>
      obtain ⟨hx, hrest⟩ := List.nodup_cons.mp hl
      obtain ⟨hnewx, hnewr⟩ := List.forall_mem_cons.mp hnew
      obtain ⟨hownx, hownr⟩ := List.forall_mem_cons.mp hown
      have later := not_mem_keys_attach hx hnewr (new g x) (ends x)
      obtain ⟨old, attached⟩ := ih hrest later hownr (hg.attach hnewx hownx)
        fun g y hy => hface g y (List.mem_cons_of_mem x hy)
      constructor
      · intro A hA
        rw [List.map_cons, List.mem_cons, not_or] at hA
        exact (old A hA.2).trans (hg.face?_attach_of_ne hA.1 _ _)
      · intro y hy
        cases List.mem_cons.mp hy with
        | inl h =>
            subst h
            refine (old (name y) hx).trans ((face?_attach_self _ _ _ _).trans ?_)
            exact congrArg some (hface g y List.mem_cons_self)
        | inr h => exact attached y h

/-! ### Gathered ends -/

def ownedBy (name : String) (ends : List (Connection α)) : List (Connection α) :=
  ends.filter (·.owner == name)

theorem find?_byOwner (ends : List (Connection α)) (name : String) :
    (byOwner ends).find? name =
      if ownedBy name ends = [] then none else some (ownedBy name ends) := by
  have fold (m : NameMap (List (Connection α))) :
      (ends.foldl (fun owners c => owners.append c.owner c) m).find? name =
        if ownedBy name ends = [] then m.find? name
        else some ((m.find? name).getD [] ++ ownedBy name ends) := by
    induction ends generalizing m with
    | nil => rfl
    | cons c rest ih =>
        rw [List.foldl_cons, ih]
        unfold NameMap.append
        rw [NameMap.find?_insert]
        by_cases hc : c.owner = name
        · subst hc
          have hcons : ownedBy c.owner (c :: rest) = c :: ownedBy c.owner rest :=
            List.filter_cons_of_pos (beq_self_eq_true _)
          rw [hcons, if_pos rfl, if_neg (List.cons_ne_nil _ _)]
          split
          · next h => rw [h]
          · rw [Option.getD_some, List.append_assoc, List.singleton_append]
        · have hcons : ownedBy name (c :: rest) = ownedBy name rest :=
            List.filter_cons_of_neg (by simpa using hc)
          have hne : ¬ name = c.owner := fun h => hc h.symm
          rw [hcons, if_neg hne]
  exact fold .empty

/-- Ends gathered under one owner after the other make the same graph in any order of the owners. -/
theorem gather_congr {ends ends' : List (Connection α)}
    (h : ∀ name, ownedBy name ends = ownedBy name ends') : gather ends = gather ends' := by
  have owners : byOwner ends = byOwner ends' := by
    apply NameMap.ext_find?
    intro name
    rw [find?_byOwner, find?_byOwner, h]
  rw [gather, owners]
  rfl

/-- The face of a module that was made for its ends. -/
def plainFace (ends : List (Connection α)) : Face α := portrait (Module.new ⟨0⟩ "") ends

theorem face?_gather (ends : List (Connection α)) (name : String) :
    (gather ends).face? name =
      if ownedBy name ends = [] then none else some (plainFace (ownedBy name ends)) := by
  have owners := find?_byOwner ends name
  have hown : ∀ x ∈ (byOwner ends).entries, ∀ e ∈ x.2, e.owner = x.1 :=
    fun x hx e he => (mem_byOwner.mp ⟨x.2, hx, he⟩).2
  have plain : ∀ g : Graph α, ∀ x ∈ (byOwner ends).entries,
      portrait (Module.new g.nextModuleId "") x.2 = plainFace x.2 := fun _ _ _ => rfl
  obtain ⟨old, attached⟩ := face?_attachAll (NameMap.keys_nodup (byOwner ends))
    (fun _ _ => List.not_mem_nil) hown sound_empty.coherent plain
  rw [← gather_eq] at old attached
  split at owners
  · next hnone =>
    rw [if_pos hnone]
    refine old name fun hm => ?_
    obtain ⟨l, hl⟩ := NameMap.mem_keys_iff.mp hm
    cases owners.symm.trans hl
  · next hsome =>
    rw [if_neg hsome]
    exact attached _ (NameMap.find?_eq_some.mp owners)

theorem mem_sortedFamily {ends : List (Connection α)} {chain : Bool} {x : Connection α} :
    x ∈ sortedFamily ends chain ↔ ∃ e ∈ ends, e.kind.isChain = chain ∧ e.unmatch = x := by
  simp [sortedFamily, and_assoc]

theorem pairwise_sortedFamily (ends : List (Connection α)) (chain : Bool) :
    (sortedFamily ends chain).Pairwise fun a b => a.name ≤ b.name := by
  unfold sortedFamily
  rw [List.pairwise_map]
  change List.Pairwise (fun a b : Connection α => a.name ≤ b.name) _
  refine (List.pairwise_mergeSort ?_ ?_ _).imp of_decide_eq_true
  · intro a b c hab hbc
    exact decide_eq_true (String.le_trans (of_decide_eq_true hab) (of_decide_eq_true hbc))
  · intro a b
    simpa using String.le_total a.name b.name

/-! ### Graphs side by side -/

/-- Ends that show themselves by name keep their order when they are attached anew. -/
theorem portrait_freedEnds {g : Graph α} (hg : g.Coherent) {name : String} {m : Module}
    (hm : (name, m) ∈ g.modules.entries)
    (sorted : ∀ chain, ((g.face m).ends chain).Pairwise fun a b => a.name ≤ b.name) :
    portrait m (g.freedEnds m) = g.face m := by
  have parts : g.freedEnds m = (g.face m).ends false ++ (g.face m).ends true :=
    List.filterMap_append
  have kinds {chain : Bool} {x : Connection α} (hx : x ∈ (g.face m).ends chain) :
      x.kind.isChain = chain := by
    obtain ⟨c, e, hc, he, rfl⟩ :=
      mem_face.mp ⟨g.face m, congrArg _ (NameMap.find?_eq_some.mpr hm), hx⟩
    exact (hg.listed_on_owner hc he).2.1
  have free {chain : Bool} : ∀ x ∈ (g.face m).ends chain, x.unmatch = x := by
    intro x hx
    obtain ⟨c, e, hc, he, rfl⟩ :=
      mem_face.mp ⟨g.face m, congrArg _ (NameMap.find?_eq_some.mpr hm), hx⟩
    rfl
  have family (chain : Bool) : (g.freedEnds m).filter (·.kind.isChain == chain) =
      (g.face m).ends chain := by
    have all : ((g.face m).ends chain).filter (·.kind.isChain == chain) = (g.face m).ends chain :=
      List.filter_eq_self.mpr fun x hx => beq_iff_eq.mpr (kinds hx)
    have none : ((g.face m).ends (!chain)).filter (·.kind.isChain == chain) = [] := by
      rw [List.filter_eq_nil_iff]
      intro x hx
      simp [kinds hx]
    rw [parts, List.filter_append]
    cases chain with
    | false => rw [all, show ((g.face m).ends true).filter _ = [] from none, List.append_nil]
    | true => rw [all, show ((g.face m).ends false).filter _ = [] from none, List.nil_append]
  have ends : sortedFamily (g.freedEnds m) = (g.face m).ends := by
    funext chain
    unfold sortedFamily
    rw [family, List.mergeSort_of_pairwise ((sorted chain).imp decide_eq_true),
      List.map_congr_left free, List.map_id']
  unfold portrait
  rw [ends]
  rfl

/-- Faces with the ends by name. -/
def FacesSorted (g : Graph α) : Prop :=
  ∀ name f, g.face? name = some f → ∀ chain, (f.ends chain).Pairwise fun a b => a.name ≤ b.name

/-- Both graphs keep their faces. -/
theorem face?_juxtapose {g incoming : Graph α} (hg : g.Coherent) (hi : incoming.Coherent)
    (sorted : incoming.FacesSorted) (apart : ¬ ∃ name, g.SharedName incoming name) (name : String) :
    (g.juxtapose incoming).face? name = (incoming.face? name).or (g.face? name) := by
  have hnew : ∀ x ∈ incoming.modules.entries, x.1 ∉ g.modules.keys := fun x hx hm =>
    apart ⟨x.1, hm, NameMap.mem_keys_of_mem hx⟩
  have hface : ∀ _ : Graph α, ∀ x ∈ incoming.modules.entries,
      portrait x.2 (incoming.freedEnds x.2) = incoming.face x.2 := fun _ x hx =>
    portrait_freedEnds hi hx (sorted x.1 _ (congrArg _ (NameMap.find?_eq_some.mpr hx)))
  obtain ⟨old, attached⟩ := face?_attachAll incoming.modules.keys_nodup hnew
    (fun x hx e he => (mem_freedEnds hi hx he).1) hg hface
  rw [← juxtapose_eq] at old attached
  cases hf : incoming.module? name with
  | none =>
      have hk : name ∉ incoming.modules.entries.map Prod.fst := by
        intro hm
        obtain ⟨m, hm⟩ := NameMap.mem_keys_iff.mp hm
        cases hf.symm.trans hm
      have absent : incoming.face? name = none := by rw [face?, hf, Option.map_none]
      rw [old name hk, absent, Option.none_or]
  | some m =>
      have present : incoming.face? name = some (incoming.face m) := by
        rw [face?, hf, Option.map_some]
      rw [attached (name, m) (NameMap.find?_eq_some.mp hf), present, Option.some_or]

end HardwareLinker.Graph
