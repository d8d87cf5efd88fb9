import Mathlib.Data.List.Find
import Mathlib.Data.Set.Function
import HardwareLinker.Graph.Edges
import HardwareLinker.Proofs.Graph.Saturation

/-!
Graphs under other handles. Linking sees ends only through the table, so a table and its image under
a renaming that keeps handles apart are threaded alike; what is derived from a graph is derived from
its image as well. Threading frees a chain first, so it depends on the ends of that chain alone, and
not on how they were linked.
-/

namespace HardwareLinker

variable {α : Type} {ρ : ConnectionId → ConnectionId} {S : Set ConnectionId}

/-- The end with its partner under another handle. -/
def Connection.rename (ρ : ConnectionId → ConnectionId) (e : Connection α) : Connection α :=
  { e with partner := e.partner.map ρ }

namespace Graph.Table

/-- One table shows the ends of the other under other handles, as far as some handles go. -/
def Mirrors (ρ : ConnectionId → ConnectionId) (S : Set ConnectionId) (t' t : Table α) : Prop :=
  ∀ c ∈ S, t'[(ρ c).slot]? = t[c.slot]?.map (·.rename ρ)

theorem slot_rename (hρ : Set.InjOn ρ S) {a c : ConnectionId} (ha : a ∈ S) (hc : c ∈ S) :
    (ρ a).slot = (ρ c).slot ↔ a.slot = c.slot := by
  rw [ConnectionId.slot_inj, ConnectionId.slot_inj, hρ.eq_iff ha hc]

theorem Mirrors.link {t t' : Table α} (h : Mirrors ρ S t' t) (hρ : Set.InjOn ρ S)
    {a b : ConnectionId} (ha : a ∈ S) (hb : b ∈ S) :
    Mirrors ρ S (t'.link (ρ a) (ρ b)) (t.link a b) := by
  intro c hc
  simp only [getElem?_link, h c hc, slot_rename hρ ha hc, slot_rename hρ hb hc]
  cases t[c.slot]? <;> split <;> split <;> rfl

theorem Mirrors.linkable {t t' : Table α} (h : Mirrors ρ S t' t) {a b : ConnectionId}
    (ha : a ∈ S) (hb : b ∈ S) : t'.linkable (ρ a) (ρ b) = t.linkable a b := by
  unfold Table.linkable
  rw [h a ha, h b hb]
  cases t[a.slot]? <;> cases t[b.slot]? <;> rfl

theorem Mirrors.isSource {t t' : Table α} (h : Mirrors ρ S t' t) {c : ConnectionId} (hc : c ∈ S) :
    t'.isSource (ρ c) = t.isSource c := by
  unfold Table.isSource
  rw [h c hc]
  cases t[c.slot]? <;> rfl

theorem Mirrors.linkFirst {t t' : Table α} (h : Mirrors ρ S t' t) (hρ : Set.InjOn ρ S)
    {a : ConnectionId} (ha : a ∈ S) {candidates : List ConnectionId}
    (hc : ∀ b ∈ candidates, b ∈ S) :
    Mirrors ρ S (t'.linkFirst (ρ a) (candidates.map ρ)) (t.linkFirst a candidates) := by
  have found : (candidates.map ρ).find? (t'.linkable (ρ a)) =
      (candidates.find? (t.linkable a)).map ρ := by
    rw [List.find?_map]
    congr 1
    apply List.find?_congr
    intro b hb
    exact h.linkable ha (hc b hb)
  unfold Table.linkFirst
  rw [found]
  cases hf : candidates.find? (t.linkable a) with
  | none => exact h
  | some b => exact h.link hρ ha (hc b (List.mem_of_find?_eq_some hf))

theorem ringFrom_map (members : List (List ConnectionId)) (i : Nat) :
    ringFrom (members.map (·.map ρ)) i = (ringFrom members i).map ρ := by
  simp only [ringFrom, ← List.map_drop, ← List.map_take, ← List.map_append, List.map_flatten]

theorem Mirrors.threadCarrier {members : List (List ConnectionId)} {t t' : Table α}
    (h : Mirrors ρ S t' t) (hρ : Set.InjOn ρ S) (hm : ∀ c ∈ members.flatten, c ∈ S)
    {ends : List ConnectionId} {i : Nat} (hends : ∀ c ∈ ends, c ∈ S) :
    Mirrors ρ S (Table.threadCarrier (members.map (·.map ρ)) t' (ends.map ρ, i))
      (Table.threadCarrier members t (ends, i)) := by
  unfold Table.threadCarrier
  induction ends generalizing t t' with
  | nil => exact h
  | cons c rest ih =>
      obtain ⟨hc, hrest⟩ := List.forall_mem_cons.mp hends
      refine ih ?_ hrest
      simp only [h.isSource hc, ringFrom_map]
      split
      · exact h.linkFirst hρ hc fun b hb => hm b (mem_of_mem_ringFrom hb)
      · exact h

/-- Chains whose ends agree up to their match state are threaded alike. -/
theorem Mirrors.threadChain {members : List (List ConnectionId)} {t t' : Table α}
    (hρ : Set.InjOn ρ {c | c ∈ members.flatten})
    (same : ∀ c ∈ members.flatten,
      t'[(ρ c).slot]?.map (·.unmatch) = t[c.slot]?.map (·.unmatch)) :
    Mirrors ρ {c | c ∈ members.flatten} (t'.threadChain (members.map (·.map ρ)))
      (t.threadChain members) := by
  have freed : Mirrors ρ {c | c ∈ members.flatten}
      ((members.map (·.map ρ)).flatten.foldl unlink t') (members.flatten.foldl unlink t) := by
    intro c hc
    have hc' : ρ c ∈ (members.map (·.map ρ)).flatten := by
      rw [← List.map_flatten]
      exact List.mem_map_of_mem hc
    have hc'' : c ∈ members.flatten := hc
    rw [getElem?_unlinkAll, if_pos hc', getElem?_unlinkAll, if_pos hc'', same c hc]
    cases t[c.slot]? <;> rfl
  have carriers : ∀ carrier ∈ members.zipIdx, ∀ c ∈ carrier.1, c ∈ members.flatten := by
    intro carrier hm c hc
    exact List.mem_flatten.mpr ⟨carrier.1, List.fst_mem_of_mem_zipIdx hm, hc⟩
  rw [threadChain_eq, threadChain_eq, List.zipIdx_map]
  generalize (members.map (·.map ρ)).flatten.foldl unlink t' = u' at freed
  generalize members.flatten.foldl unlink t = u at freed
  generalize members.zipIdx = l at carriers
  induction l generalizing u u' with
  | nil => exact freed
  | cons carrier rest ih =>
      obtain ⟨hcarrier, hrest⟩ := List.forall_mem_cons.mp carriers
      exact ih _ _ (freed.threadCarrier hρ (fun _ h => h) hcarrier) hrest

/-- Threading depends on nothing but the ends of the chain. -/
theorem threadChain_congr {members : List (List ConnectionId)} {t t' : Table α}
    (same : ∀ c ∈ members.flatten, t'[c.slot]?.map (·.unmatch) = t[c.slot]?.map (·.unmatch))
    {c : ConnectionId} (hc : c ∈ members.flatten) :
    (t'.threadChain members)[c.slot]? = (t.threadChain members)[c.slot]? := by
  have unchanged : (fun e : Connection α => e.rename id) = id := by
    funext e
    simp [Connection.rename]
  have h := Mirrors.threadChain (Set.injOn_id _) same c hc
  rw [unchanged] at h
  simpa using h

end Graph.Table

/-! ### Renamed graphs -/

/-- The module with its ends under other handles, and another handle of its own. -/
def Module.rename (ρ : ConnectionId → ConnectionId) (id : ModuleId) (m : Module) : Module :=
  { m with id, channels := m.channels.map ρ, chains := m.chains.map ρ }

namespace Graph

/-- The same modules list the same ends under other handles. -/
def SameModules (ρ : ConnectionId → ConnectionId) (g g' : Graph α) : Prop :=
  List.Forall₂ (fun x x' => x'.1 = x.1 ∧ x'.2 = x.2.rename ρ x'.2.id)
    g.modules.entries g'.modules.entries

/-- One graph is the other with other handles for its ends and modules. -/
structure Renamed (ρ : ConnectionId → ConnectionId) (g g' : Graph α) : Prop where
  bijective : Function.Bijective ρ
  modules : SameModules ρ g g'
  ends : ∀ c, g'.connection? (ρ c) = (g.connection? c).map (·.rename ρ)

theorem family_rename (id : ModuleId) (m : Module) (chain : Bool) :
    (m.rename ρ id).family chain = (m.family chain).map ρ := by
  cases chain <;> rfl

theorem ends_rename (id : ModuleId) (m : Module) : (m.rename ρ id).ends = m.ends.map ρ :=
  (List.map_append ..).symm

/-- What is read off the entries one by one is read off the renamed entries as well. -/
theorem SameModules.map_entries {β : Type} {g g' : Graph α} (h : SameModules ρ g g')
    {f f' : String × Module → β} (hf : ∀ name m id, f' (name, m.rename ρ id) = f (name, m)) :
    g'.modules.entries.map f' = g.modules.entries.map f := by
  unfold SameModules at h
  generalize g.modules.entries = l, g'.modules.entries = l' at h
  induction h with
  | nil => rfl
  | @cons x x' _ _ hx _ ih =>
      obtain ⟨name, m⟩ := x
      obtain ⟨name', m'⟩ := x'
      obtain ⟨rfl, hm⟩ : name' = name ∧ m' = m.rename ρ m'.id := hx
      rw [List.map_cons, List.map_cons, ih, hm, hf]

theorem SameModules.moduleNames {g g' : Graph α} (h : SameModules ρ g g') :
    g'.moduleNames = g.moduleNames := h.map_entries fun _ _ _ => rfl

theorem SameModules.contains {g g' : Graph α} (h : SameModules ρ g g') (name : String) :
    g'.modules.contains name = g.modules.contains name := by
  rw [Bool.eq_iff_iff, NameMap.contains_iff, NameMap.contains_iff]
  exact iff_of_eq (congrArg (name ∈ ·) h.moduleNames)

/-- The ends at corresponding places have their partners at corresponding places. -/
theorem Renamed.partner? {g g' : Graph α} (h : g.Renamed ρ g') (c : ConnectionId) :
    g'.partner? (ρ c) = (g.partner? c).map ρ := by
  rw [Graph.partner?, Graph.partner?, h.ends]
  cases g.connection? c <;> rfl

theorem Renamed.partnerOwner? {g g' : Graph α} (h : g.Renamed ρ g') (e : Connection α) :
    g'.partnerOwner? (e.rename ρ) = g.partnerOwner? e := by
  unfold Graph.partnerOwner? Connection.rename
  cases e.partner with
  | none => rfl
  | some p =>
      simp only [Option.map_some, Option.bind_eq_bind, Option.bind_some, h.ends, h.modules.contains]
      cases g.connection? p <;> rfl

/-- Edges do not show handles. -/
theorem Renamed.edges [Scalar α] {g g' : Graph α} (h : g.Renamed ρ g') : g'.edges = g.edges := by
  have target (owner : String) (e : Connection α) :
      g'.target? owner (e.rename ρ) = g.target? owner e := by
    unfold target?
    rw [h.partnerOwner?]
    rfl
  have flows (owner : String) (m : Module) (id : ModuleId) :
      g'.outflows owner (m.rename ρ id) = g.outflows owner m := by
    unfold outflows
    rw [ends_rename, List.filterMap_map]
    congr 1
    funext c
    simp only [Function.comp_apply, h.ends]
    cases g.connection? c with
    | none => rfl
    | some e => simp only [Option.map_some, Option.bind_eq_bind, Option.bind_some, target]; rfl
  unfold Graph.edges
  rw [List.flatMap_def, List.flatMap_def]
  congr 1
  apply h.modules.map_entries
  intro name m id
  simp only [edgesFrom, flows]

/-- The same required ends are open, under their other handles. -/
theorem Renamed.unmatched {g g' : Graph α} (h : g.Renamed ρ g') :
    g'.unmatched = g.unmatched.map ρ := by
  have ends :
      g'.modules.values.flatMap Module.ends = (g.modules.values.flatMap Module.ends).map ρ := by
    rw [List.flatMap_def, List.flatMap_def, List.map_flatten, NameMap.values, NameMap.values,
      List.map_map, List.map_map, List.map_map]
    congr 1
    apply h.modules.map_entries
    intro name m id
    exact ends_rename id m
  unfold Graph.unmatched
  rw [ends, List.filter_map]
  congr 2
  funext c
  simp only [Function.comp_apply, h.ends, Option.any_map]
  rfl

theorem Renamed.hasUnmatched {g g' : Graph α} (h : g.Renamed ρ g') :
    g'.hasUnmatched = g.hasUnmatched := by
  unfold Graph.hasUnmatched
  rw [h.unmatched, List.isEmpty_map]

end Graph
end HardwareLinker
