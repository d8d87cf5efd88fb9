import Mathlib.Data.List.Nodup
import HardwareLinker.Graph.Assembly
import HardwareLinker.Graph.Review
import HardwareLinker.Proofs.NameMap
import HardwareLinker.Proofs.Graph.Table

/-!
Interfaces of a graph. A coherent graph lists on each module only ends that the module owns, under
their family and once; attaching modules keeps that and leaves what was there before alone. Ends may
be linked if they are listed in one family, channels only across different modules.
-/

namespace HardwareLinker

variable {α : Type}

/-- The listed ends of one family. -/
def Module.family (m : Module) (chain : Bool) : List ConnectionId :=
  if chain then m.chains else m.channels

theorem Module.mem_ends {m : Module} {c : ConnectionId} :
    c ∈ m.ends ↔ ∃ chain, c ∈ m.family chain := by
  simp only [ends, family, List.mem_append, Bool.exists_bool, Bool.false_eq_true, if_false, if_true]

namespace Graph

/-- The named module lists the end, in the family of chains or of channels. -/
def Lists (g : Graph α) (chain : Bool) (name : String) (c : ConnectionId) : Prop :=
  ∃ m, (name, m) ∈ g.modules.entries ∧ c ∈ m.family chain

/-- Interfaces hold ends of their own module, each once and in its family. -/
structure Coherent (g : Graph α) : Prop where
  listed : ∀ {chain : Bool} {name : String} {c : ConnectionId}, g.Lists chain name c →
    ∃ e, g.connection? c = some e ∧ e.owner = name ∧ e.kind.isChain = chain
  nodup : ∀ {name : String} {m : Module} (chain : Bool), (name, m) ∈ g.modules.entries →
    (m.family chain).Nodup

theorem Coherent.owner_unique {g : Graph α} (h : g.Coherent) {chain chain' : Bool} {A B : String}
    {c : ConnectionId} (hA : g.Lists chain A c) (hB : g.Lists chain' B c) :
    A = B ∧ chain = chain' := by
  obtain ⟨e, he, hea, hec⟩ := h.listed hA
  obtain ⟨f, hf, hfb, hfc⟩ := h.listed hB
  rw [he] at hf
  cases hf
  exact ⟨hea.symm.trans hfb, hec.symm.trans hfc⟩

/-- What all modules show is what the modules of all names show. -/
theorem flatMap_moduleNames {β : Type} (g : Graph α) (shown : Module → List β) :
    (g.moduleNames.flatMap fun name => (g.module? name).elim [] shown) =
      g.modules.values.flatMap shown := by
  have entries (l : List (String × Module)) (hl : l ⊆ g.modules.entries) :
      (l.map Prod.fst).flatMap (fun name => (g.module? name).elim [] shown) =
        (l.map Prod.snd).flatMap shown := by
    induction l with
    | nil => rfl
    | cons x rest ih =>
        obtain ⟨hx, hrest⟩ := List.cons_subset.mp hl
        have hfind : g.module? x.1 = some x.2 := NameMap.find?_eq_some.mpr hx
        simp only [List.map_cons, List.flatMap_cons, hfind, Option.elim_some, ih hrest]
  exact entries g.modules.entries (List.Subset.refl _)

/-- No end is listed twice. -/
theorem Coherent.ends_nodup {g : Graph α} (h : g.Coherent) :
    (g.modules.values.flatMap Module.ends).Nodup := by
  rw [NameMap.values, List.flatMap_map, List.nodup_flatMap]
  constructor
  · intro x hx
    refine (h.nodup false hx).append (h.nodup true hx) ?_
    intro c hc hc'
    have channel : g.Lists false x.1 c := ⟨x.2, hx, hc⟩
    have chain : g.Lists true x.1 c := ⟨x.2, hx, hc'⟩
    exact Bool.false_ne_true (h.owner_unique channel chain).2
  · refine g.modules.ascending.imp_of_mem ?_
    intro x y hx hy hlt c hc hc'
    obtain ⟨chain, hc⟩ := Module.mem_ends.mp hc
    obtain ⟨chain', hc'⟩ := Module.mem_ends.mp hc'
    exact String.lt_irrefl _ ((h.owner_unique ⟨x.2, hx, hc⟩ ⟨y.2, hy, hc'⟩).1 ▸ hlt)

/-- Two listed ends of one family; channels must belong to different modules. -/
def MayLink (g : Graph α) (c p : ConnectionId) : Prop :=
  ∃ chain A B, g.Lists chain A c ∧ g.Lists chain B p ∧ (chain = false → A ≠ B)

theorem MayLink.symm {g : Graph α} {c p : ConnectionId} (h : g.MayLink c p) : g.MayLink p c := by
  obtain ⟨chain, A, B, hc, hp, hne⟩ := h
  exact ⟨chain, B, A, hp, hc, fun hf => (hne hf).symm⟩

/-- One graph holds all modules of another and further ones, which are named by a test. -/
structure Extends (g' g : Graph α) (fresh : String → Prop) : Prop where
  entries : ∀ {name : String} {m : Module}, ¬ fresh name →
    ((name, m) ∈ g'.modules.entries ↔ (name, m) ∈ g.modules.entries)
  kept : ∀ {c : ConnectionId} {e : Connection α}, g.connection? c = some e →
    g'.connection? c = some e

theorem Extends.lists {g' g : Graph α} {fresh : String → Prop} (h : g'.Extends g fresh)
    {chain : Bool} {name : String} {c : ConnectionId} (hn : ¬ fresh name) :
    g'.Lists chain name c ↔ g.Lists chain name c := by
  simp only [Lists, h.entries hn]

/-! ### Attaching a module -/

theorem mem_listFamily {chain : Bool} {first : Nat} {ends : List (Connection α)}
    {c : ConnectionId} :
    c ∈ listFamily chain first ends ↔
      ∃ e, first ≤ c.slot ∧ ends[c.slot - first]? = some e ∧ e.kind.isChain = chain := by
  simp only [listFamily, List.mem_map, List.mem_mergeSort, List.mem_filter, beq_iff_eq, Prod.exists,
    List.mem_zipIdx_iff_le_and_getElem?_sub]
  constructor
  · rintro ⟨e, i, ⟨⟨hi, he⟩, hk⟩, rfl⟩
    exact ⟨e, hi, he, hk⟩
  · rintro ⟨e, hi, he, hk⟩
    exact ⟨e, c.slot, ⟨⟨hi, he⟩, hk⟩, rfl⟩

theorem nodup_listFamily (chain : Bool) (first : Nat) (ends : List (Connection α)) :
    (listFamily chain first ends).Nodup := by
  let handle (e : Connection α × Nat) : ConnectionId := ⟨e.2⟩
  have all : ((ends.zipIdx first).map handle).Nodup := by
    have hs : ((ends.zipIdx first).map Prod.snd).Nodup := by
      rw [List.zipIdx_map_snd]
      exact List.nodup_range'
    refine List.Nodup.of_map ConnectionId.slot ?_
    simpa [handle, Function.comp_def] using hs
  have kept : (((ends.zipIdx first).filter fun e => e.1.kind.isChain == chain).map handle).Nodup :=
    all.sublist (List.filter_sublist.map handle)
  exact (((List.mergeSort_perm _ _).map handle).nodup_iff).mpr kept

/-- The module that `attach` adds. -/
def attached (g : Graph α) (m : Module) (ends : List (Connection α)) : Module :=
  { m with
    id := g.nextModuleId
    channels := listFamily false g.connections.size ends
    chains := listFamily true g.connections.size ends }

theorem family_attached (g : Graph α) (m : Module) (ends : List (Connection α)) (chain : Bool) :
    (g.attached m ends).family chain = listFamily chain g.connections.size ends := by
  cases chain <;> rfl

theorem mem_entries_attach {g : Graph α} {name : String} {m : Module}
    {ends : List (Connection α)} {e : String × Module} :
    e ∈ (g.attach name m ends).modules.entries ↔
      e = (name, g.attached m ends) ∨ e ∈ g.modules.entries ∧ e.1 ≠ name :=
  NameMap.mem_insert

theorem connection?_attach (g : Graph α) (name : String) (m : Module)
    (ends : List (Connection α)) (c : ConnectionId) :
    (g.attach name m ends).connection? c =
      if c.slot < g.connections.size then g.connection? c
      else ends[c.slot - g.connections.size]? := by
  simp [attach, connection?, Array.getElem?_append]

theorem lists_attach {g : Graph α} {name : String} (hnew : name ∉ g.modules.keys) {m : Module}
    {ends : List (Connection α)} {chain : Bool} {A : String} {c : ConnectionId} :
    (g.attach name m ends).Lists chain A c ↔
      g.Lists chain A c ∨ A = name ∧ c ∈ listFamily chain g.connections.size ends := by
  simp only [Lists, mem_entries_attach]
  constructor
  · rintro ⟨m', h | ⟨h, -⟩, hc⟩
    · cases h
      exact .inr ⟨rfl, family_attached g m ends chain ▸ hc⟩
    · exact .inl ⟨m', h, hc⟩
  · rintro (⟨m', h, hc⟩ | ⟨rfl, hc⟩)
    · exact ⟨m', .inr ⟨h, fun e => hnew (e ▸ NameMap.mem_keys_of_mem h)⟩, hc⟩
    · exact ⟨g.attached m ends, .inl rfl, (family_attached g m ends chain).symm ▸ hc⟩

theorem extends_attach {g : Graph α} {name : String} {m : Module} {ends : List (Connection α)} :
    (g.attach name m ends).Extends g (· = name) where
  entries hn := by
    rw [mem_entries_attach]
    constructor
    · rintro (h | h)
      · cases h
        exact absurd rfl hn
      · exact h.1
    · exact fun h => .inr ⟨h, hn⟩
  kept {c e} he := by
    have hlt : c.slot < g.connections.size := (Array.getElem?_eq_some_iff.mp he).1
    rw [connection?_attach, if_pos hlt, he]

theorem Coherent.attach {g : Graph α} (h : g.Coherent) {name : String}
    (hnew : name ∉ g.modules.keys) {m : Module} {ends : List (Connection α)}
    (hown : ∀ e ∈ ends, e.owner = name) : (g.attach name m ends).Coherent where
  listed {chain A c} hc := by
    rcases (lists_attach hnew).mp hc with hold | ⟨rfl, hfamily⟩
    · obtain ⟨e, he, rest⟩ := h.listed hold
      exact ⟨e, extends_attach.kept he, rest⟩
    · obtain ⟨e, hfirst, he, hk⟩ := mem_listFamily.mp hfamily
      refine ⟨e, ?_, hown e (List.mem_of_getElem? he), hk⟩
      rw [connection?_attach, if_neg (Nat.not_lt.mpr hfirst), he]
  nodup {A m'} chain hm := by
    rcases mem_entries_attach.mp hm with hm | ⟨hm, -⟩
    · cases hm
      rw [family_attached]
      exact nodup_listFamily chain _ ends
    · exact h.nodup chain hm

/-- New ends come free, so links among the old ones stay mutual. -/
theorem linked_attach {g : Graph α} (h : Table.Linked g.MayLink g.connections) {name : String}
    (hnew : name ∉ g.modules.keys) {m : Module} {ends : List (Connection α)}
    (hfree : ∀ e ∈ ends, e.matched = false ∧ e.partner = none) :
    Table.Linked (g.attach name m ends).MayLink (g.attach name m ends).connections := by
  have split {c : ConnectionId} {e : Connection α}
      (he : (g.attach name m ends).connection? c = some e) :
      g.connection? c = some e ∨ e ∈ ends := by
    rw [connection?_attach] at he
    split at he
    · exact .inl he
    · exact .inr (List.mem_of_getElem? he)
  constructor
  · intro c e he
    rcases split he with he | he
    · exact h.matched_iff he
    · simp [(hfree e he).1, (hfree e he).2]
  · intro c p e he hp
    rcases split he with he | he
    · obtain ⟨⟨chain, A, B, hA, hB, hne⟩, f, hf, rest⟩ := h.partners he hp
      have listed {A : String} {c : ConnectionId} (h : g.Lists chain A c) :
          (g.attach name m ends).Lists chain A c := (lists_attach hnew).mpr (.inl h)
      exact ⟨⟨chain, A, B, listed hA, listed hB, hne⟩, f, extends_attach.kept hf, rest⟩
    · simp [(hfree e he).2] at hp

end Graph
end HardwareLinker
