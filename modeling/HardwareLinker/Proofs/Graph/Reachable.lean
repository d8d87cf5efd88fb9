import Mathlib.Data.List.Nodup
import HardwareLinker.Proofs.Graph.Interface

/-!
The invariant of module graphs. A graph that grows by assembly, by new modules, by merging and by
trimming is sound: interfaces are coherent, links are mutual and join listed ends only, and ends of
one name and family agree on their type across modules.
-/

namespace HardwareLinker.Graph

variable {α : Type}

/-- Equal names mean equal types, within one family and between two different modules as given. -/
def TypesAgree (g : Graph α) (between : String → String → Prop) : Prop :=
  ∀ ⦃chain : Bool⦄ ⦃A B : String⦄ ⦃c d : ConnectionId⦄ ⦃e f : Connection α⦄,
    between A B → A ≠ B → g.Lists chain A c → g.Lists chain B d →
    g.connection? c = some e → g.connection? d = some f → e.name = f.name → e.type = f.type

/-- What every operation on a graph keeps. -/
structure Sound (g : Graph α) : Prop where
  coherent : g.Coherent
  linked : Table.Linked g.MayLink g.connections
  typed : g.TypesAgree fun _ _ => True

/-- The graphs that the operations build from ends that come free. -/
inductive Reachable : Graph α → Prop
  | empty : Reachable empty
  | assembled {ends : List (Connection α)} {g : Graph α}
      (free : ∀ e ∈ ends, e.matched = false ∧ e.partner = none)
      (h : ofConnections ends = .ok g) : Reachable g
  | added {g g' : Graph α} {name kind : String} {id : ModuleId} (hg : Reachable g)
      (h : g.addModule name kind = .ok (id, g')) : Reachable g'
  | merged {g incoming g' : Graph α} (hg : Reachable g) (hi : Reachable incoming)
      (h : g.merge incoming = .ok g') : Reachable g'
  | trimmed {g : Graph α} (hg : Reachable g) : Reachable g.trim

/-! ### Attaching many modules -/

def attachAll {β : Type} (name : β → String) (new : Graph α → β → Module)
    (ends : β → List (Connection α)) (g : Graph α) (l : List β) : Graph α :=
  l.foldl (fun g x => g.attach (name x) (new g x) (ends x)) g

theorem gather_eq (ends : List (Connection α)) :
    gather ends = attachAll Prod.fst (fun g _ => Module.new g.nextModuleId "") Prod.snd empty
      (byOwner ends).entries := rfl

theorem juxtapose_eq (g incoming : Graph α) :
    g.juxtapose incoming = attachAll Prod.fst (fun _ x => x.2) (fun x => incoming.freedEnds x.2) g
      incoming.modules.entries := rfl

/-- Names that are still to come stay new. -/
theorem not_mem_keys_attach {β : Type} {name : β → String} {g : Graph α} {x : β} {rest : List β}
    (hx : name x ∉ rest.map name) (hnew : ∀ y ∈ rest, name y ∉ g.modules.keys) (m : Module)
    (ends : List (Connection α)) :
    ∀ y ∈ rest, name y ∉ (g.attach (name x) m ends).modules.keys := by
  intro y hy hm
  cases NameMap.mem_keys_insert.mp hm with
  | inl h => exact hx (List.mem_map.mpr ⟨y, hy, h⟩)
  | inr h => exact hnew y hy h

/-- What each new module keeps holds after all of them. -/
theorem attachAll_keeps {β : Type} {name : β → String} {new : Graph α → β → Module}
    {ends : β → List (Connection α)} {P : Graph α → Prop} {g : Graph α} {l : List β}
    (hl : (l.map name).Nodup) (hnew : ∀ x ∈ l, name x ∉ g.modules.keys)
    (step : ∀ x ∈ l, ∀ g, name x ∉ g.modules.keys → P g → P (g.attach (name x) (new g x) (ends x)))
    (h : P g) : P (attachAll name new ends g l) := by
  induction l generalizing g with
  | nil => exact h
  | cons x rest ih =>
      obtain ⟨hx, hrest⟩ := List.nodup_cons.mp hl
      obtain ⟨hnewx, hnewr⟩ := List.forall_mem_cons.mp hnew
      exact ih hrest (not_mem_keys_attach hx hnewr _ _)
        (fun y hy => step y (List.mem_cons_of_mem x hy)) (step x List.mem_cons_self g hnewx h)

theorem Extends.trans {g₁ g₂ g₃ : Graph α} {F F' F'' : String → Prop} (h : g₂.Extends g₁ F)
    (h' : g₃.Extends g₂ F') (hF : ∀ A, F A ∨ F' A → F'' A) : g₃.Extends g₁ F'' where
  entries hn := (h'.entries fun hf => hn (hF _ (.inr hf))).trans
    (h.entries fun hf => hn (hF _ (.inl hf)))
  kept he := h'.kept (h.kept he)

/-- The new modules bring their own ends, and the old ones stay what they are. -/
theorem attachAll_coherent {β : Type} (name : β → String) (new : Graph α → β → Module)
    (ends : β → List (Connection α)) {g : Graph α} {l : List β} (hl : (l.map name).Nodup)
    (hnew : ∀ x ∈ l, name x ∉ g.modules.keys) (hown : ∀ x ∈ l, ∀ e ∈ ends x, e.owner = name x)
    (hc : g.Coherent) :
    (attachAll name new ends g l).Coherent ∧
      (attachAll name new ends g l).Extends g (· ∈ l.map name) := by
  refine attachAll_keeps (P := fun g' => g'.Coherent ∧ g'.Extends g (· ∈ l.map name)) hl hnew ?_
    ⟨hc, fun _ => Iff.rfl, fun he => he⟩
  intro x hx g' hnewx ⟨hc', hext⟩
  refine ⟨hc'.attach hnewx (hown x hx), hext.trans extends_attach ?_⟩
  intro A hA
  cases hA with
  | inl h => exact h
  | inr h => exact h ▸ List.mem_map_of_mem hx

theorem attachAll_linked {β : Type} (name : β → String) (new : Graph α → β → Module)
    (ends : β → List (Connection α)) {g : Graph α} {l : List β} (hl : (l.map name).Nodup)
    (hnew : ∀ x ∈ l, name x ∉ g.modules.keys)
    (hfree : ∀ x ∈ l, ∀ e ∈ ends x, e.matched = false ∧ e.partner = none)
    (hk : Table.Linked g.MayLink g.connections) :
    Table.Linked (attachAll name new ends g l).MayLink (attachAll name new ends g l).connections :=
  attachAll_keeps (P := fun g' => Table.Linked g'.MayLink g'.connections) hl hnew
    (fun x hx _ hnewx hk' => linked_attach hk' hnewx (hfree x hx)) hk

/-! ### Matching -/

theorem mem_channelCandidates {g : Graph α} {fresh : String → Bool} {c d : ConnectionId} :
    (c, d) ∈ g.channelCandidates fresh ↔ ∃ A B mA mB,
      ((A, mA), (B, mB)) ∈ orderedPairs g.modules.entries ∧ (fresh A || fresh B) = true ∧
        c ∈ mA.channels ∧ d ∈ mB.channels := by
  simp only [channelCandidates, List.mem_flatMap, Prod.exists]
  constructor
  · rintro ⟨A, mA, B, mB, hp, h⟩
    split at h
    · next hf => exact ⟨A, B, mA, mB, hp, hf, mem_crossPairs.mp h⟩
    · cases h
  · rintro ⟨A, B, mA, mB, hp, hf, hc⟩
    exact ⟨A, mA, B, mB, hp, by rw [if_pos hf]; exact mem_crossPairs.mpr hc⟩

theorem mayLink_of_candidate {g : Graph α} {fresh : String → Bool} {c d : ConnectionId}
    (h : (c, d) ∈ g.channelCandidates fresh) : g.MayLink c d := by
  obtain ⟨A, B, mA, mB, hp, -, hc, hd⟩ := mem_channelCandidates.mp h
  obtain ⟨hA, hB⟩ := mem_of_mem_orderedPairs hp
  have hlt : A < B := rel_of_mem_orderedPairs g.modules.ascending hp
  exact ⟨false, A, B, ⟨mA, hA, hc⟩, ⟨mB, hB, hd⟩, fun _ e => String.lt_irrefl _ (e ▸ hlt)⟩

def endsOn (g : Graph α) (chain : String) (m : Module) : List ConnectionId :=
  m.chains.filter fun c => (g.connection? c).any fun e => e.name == chain

theorem mem_endsOn {g : Graph α} {chain : String} {m : Module} {c : ConnectionId} :
    c ∈ g.endsOn chain m ↔ c ∈ m.chains ∧ ∃ e, g.connection? c = some e ∧ e.name = chain := by
  simp [endsOn, Option.any_eq_true]

theorem chainEnds_eq (g : Graph α) (chain : String) :
    g.chainEnds chain = (g.modules.values.map (g.endsOn chain)).filter (!·.isEmpty) := rfl

theorem mem_flatten_chainEnds {g : Graph α} {chain : String} {c : ConnectionId} :
    c ∈ (g.chainEnds chain).flatten ↔
      (∃ A, g.Lists true A c) ∧ ∃ e, g.connection? c = some e ∧ e.name = chain := by
  simp only [chainEnds_eq, List.mem_flatten, List.mem_filter, List.mem_map, NameMap.mem_values]
  constructor
  · rintro ⟨-, ⟨⟨m, ⟨A, hm⟩, rfl⟩, -⟩, hc⟩
    obtain ⟨hc, hn⟩ := mem_endsOn.mp hc
    exact ⟨⟨A, m, hm, hc⟩, hn⟩
  · rintro ⟨⟨A, m, hm, hc⟩, hn⟩
    have hcm : c ∈ g.endsOn chain m := mem_endsOn.mpr ⟨hc, hn⟩
    refine ⟨_, ⟨⟨m, ⟨A, hm⟩, rfl⟩, ?_⟩, hcm⟩
    simpa using List.ne_nil_of_mem hcm

theorem mem_chainPairs {g : Graph α} {chain : String} {x y : String × Module} {a b : ConnectionId}
    (hp : (x, y) ∈ orderedPairs g.modules.entries) (ha : a ∈ g.endsOn chain x.2)
    (hb : b ∈ g.endsOn chain y.2) :
    (a, b) ∈ (orderedPairs (g.chainEnds chain)).flatMap crossPairs := by
  have hmap : (g.endsOn chain x.2, g.endsOn chain y.2) ∈
      orderedPairs (g.modules.values.map (g.endsOn chain)) := by
    rw [NameMap.values, List.map_map, orderedPairs_map]
    exact List.mem_map.mpr ⟨(x, y), hp, rfl⟩
  have hkept := mem_orderedPairs_filter hmap (!·.isEmpty)
    (by simpa using List.ne_nil_of_mem ha) (by simpa using List.ne_nil_of_mem hb)
  rw [chainEnds_eq]
  exact List.mem_flatMap.mpr ⟨_, hkept, mem_crossPairs.mpr ⟨ha, hb⟩⟩

theorem freed_linkFresh (g : Graph α) (fresh : String → Bool) :
    Table.freed (g.linkFresh fresh).connections = Table.freed g.connections := by
  unfold linkFresh
  exact (Table.freed_foldl (fun t chain => Table.freed_threadChain t _) _ _).trans
    (Table.freed_linkGreedily g.connections (g.channelCandidates fresh))

/-- An end of a chain and its partner are threaded together. -/
theorem Coherent.chainEnds_closed {g : Graph α} (hc : g.Coherent) {t : Table α}
    (ht : t.freed = Table.freed g.connections) (hl : t.Linked g.MayLink) {chain : String}
    {c p : ConnectionId} {e : Connection α} (hm : c ∈ (g.chainEnds chain).flatten)
    (he : t[c.slot]? = some e) (hp : e.partner = some p) : p ∈ (g.chainEnds chain).flatten := by
  obtain ⟨⟨A, hA⟩, e₀, he₀, hn⟩ := mem_flatten_chainEnds.mp hm
  obtain ⟨⟨family, A', B, hA', hB, -⟩, f, hf, -, hnf, -⟩ := hl.partners he hp
  have hfamily : true = family := (hc.owner_unique hA hA').2
  obtain ⟨x, hx, hxe⟩ := Table.get_of_freed_eq ht he
  obtain ⟨y, hy, hyf⟩ := Table.get_of_freed_eq ht hf
  have hxn : x.name = e.name := Connection.name_eq_of_unmatch hxe
  have hyn : y.name = f.name := Connection.name_eq_of_unmatch hyf
  have hx₀ : x = e₀ := Option.some.inj (hx.symm.trans he₀)
  subst hfamily hx₀
  exact mem_flatten_chainEnds.mpr ⟨⟨B, hB⟩, y, hy, by rw [hyn, ← hnf, ← hxn, hn]⟩

theorem linked_linkFresh {g : Graph α} (hc : g.Coherent)
    (hl : Table.Linked g.MayLink g.connections) (fresh : String → Bool) :
    Table.Linked (g.linkFresh fresh).MayLink (g.linkFresh fresh).connections := by
  change Table.Linked g.MayLink ((g.freshChains fresh).foldl
    (fun t chain => Table.threadChain t (g.chainEnds chain))
    (Table.linkGreedily g.connections (g.channelCandidates fresh)))
  have start : Table.Linked g.MayLink
      (Table.linkGreedily g.connections (g.channelCandidates fresh)) := by
    refine hl.linkGreedily fun p hp => ?_
    have := mayLink_of_candidate hp
    exact ⟨this, this.symm⟩
  have same := Table.freed_linkGreedily g.connections (g.channelCandidates fresh)
  generalize Table.linkGreedily g.connections (g.channelCandidates fresh) = t at start same
  generalize g.freshChains fresh = chains
  induction chains generalizing t with
  | nil => exact start
  | cons chain rest ih =>
      refine ih _ (start.threadChain ?_ ?_) ((Table.freed_threadChain t _).trans same)
      · intro a ha b hb
        obtain ⟨A, hA⟩ := (mem_flatten_chainEnds.mp ha).1
        obtain ⟨B, hB⟩ := (mem_flatten_chainEnds.mp hb).1
        exact ⟨true, A, B, hA, hB, fun h => by cases h⟩
      · exact fun hm he hp => hc.chainEnds_closed same start hm he hp

theorem type_eq_of_no_conflict {g : Graph α} {c d : ConnectionId} {e f : Connection α}
    (h : g.conflictAt? (c, d) = none) (he : g.connection? c = some e)
    (hf : g.connection? d = some f) (hn : e.name = f.name) : e.type = f.type := by
  by_contra hne
  simp only [conflictAt?, he, hf, Option.bind_eq_bind, Option.bind_some, Connection.conflict?, hn,
    hne, ne_eq, not_false_eq_true, and_self, if_true] at h
  split at h <;> cases h

theorem mem_freshChains {g : Graph α} {fresh : String → Bool} {A : String} {c : ConnectionId}
    {e : Connection α} (hA : fresh A = true) (hc : g.Lists true A c)
    (he : g.connection? c = some e) : e.name ∈ g.freshChains fresh := by
  obtain ⟨m, hm, hcm⟩ := hc
  refine NameSet.mem_toList_ofList.mpr (List.mem_flatMap.mpr ⟨(A, m), hm, ?_⟩)
  simp only [hA, if_true]
  exact List.mem_filterMap.mpr ⟨c, hcm, by rw [he]; rfl⟩

/-- Matching compares every pair of ends that may meet, new modules on one side at least. -/
theorem typesAgree_of_no_conflict {g : Graph α} {fresh : String → Bool}
    (h : g.conflict? fresh = none) : g.TypesAgree fun A B => fresh A = true ∨ fresh B = true := by
  intro chain A B c d e f hfresh hne ⟨mA, hmA, hc⟩ ⟨mB, hmB, hd⟩ he hf hn
  simp only [conflict?, Option.orElse_eq_orElse, Option.orElse_eq_or, Option.or_eq_none_iff] at h
  obtain ⟨hchannels, hchains⟩ := h
  -- Modules meet in the order of their names, so the new one may be on either side.
  have meet := orderedPairs_total hmA hmB fun e => hne (Prod.ext_iff.mp e).1
  cases chain with
  | false =>
      rw [List.findSome?_eq_none_iff] at hchannels
      rcases meet with hp | hp
      · have hcand := mem_channelCandidates.mpr
          ⟨A, B, mA, mB, hp, by simpa using hfresh, hc, hd⟩
        exact type_eq_of_no_conflict (hchannels _ hcand) he hf hn
      · have hcand := mem_channelCandidates.mpr
          ⟨B, A, mB, mA, hp, by simpa [or_comm] using hfresh, hd, hc⟩
        exact (type_eq_of_no_conflict (hchannels _ hcand) hf he hn.symm).symm
  | true =>
      have hchain : e.name ∈ g.freshChains fresh := by
        rcases hfresh with hA | hB
        · exact mem_freshChains hA ⟨mA, hmA, hc⟩ he
        · exact hn ▸ mem_freshChains hB ⟨mB, hmB, hd⟩ hf
      rw [List.findSome?_eq_none_iff] at hchains
      have hpairs := List.findSome?_eq_none_iff.mp (hchains _ hchain)
      have hcA : c ∈ g.endsOn e.name mA := mem_endsOn.mpr ⟨hc, e, he, rfl⟩
      have hdB : d ∈ g.endsOn e.name mB := mem_endsOn.mpr ⟨hd, f, hf, hn.symm⟩
      rcases meet with hp | hp
      · exact type_eq_of_no_conflict (hpairs _ (mem_chainPairs hp hcA hdB)) he hf hn
      · exact (type_eq_of_no_conflict (hpairs _ (mem_chainPairs hp hdB hcA)) hf he hn.symm).symm

theorem lists_linkFresh {g : Graph α} {fresh : String → Bool} {chain : Bool} {A : String}
    {c : ConnectionId} : (g.linkFresh fresh).Lists chain A c ↔ g.Lists chain A c := Iff.rfl

theorem Coherent.linkFresh {g : Graph α} (h : g.Coherent) (fresh : String → Bool) :
    (g.linkFresh fresh).Coherent where
  listed {chain A c} hc := by
    obtain ⟨e, he, ho, hk⟩ := h.listed (lists_linkFresh.mp hc)
    obtain ⟨e', he', hee⟩ := Table.get_of_freed_eq (freed_linkFresh g fresh).symm he
    refine ⟨e', he', (Connection.owner_eq_of_unmatch hee).trans ho, ?_⟩
    rw [Connection.kind_eq_of_unmatch hee, hk]
  nodup chain hm := h.nodup chain hm

theorem TypesAgree.linkFresh {g : Graph α} {F : String → String → Prop} (h : g.TypesAgree F)
    (fresh : String → Bool) : (g.linkFresh fresh).TypesAgree F := by
  intro chain A B c d e f hF hne hA hB he hf hn
  obtain ⟨e', he', hee⟩ := Table.get_of_freed_eq (freed_linkFresh g fresh) he
  obtain ⟨f', hf', hff⟩ := Table.get_of_freed_eq (freed_linkFresh g fresh) hf
  have ht := h hF hne (lists_linkFresh.mp hA) (lists_linkFresh.mp hB) he' hf'
    (by rw [Connection.name_eq_of_unmatch hee, Connection.name_eq_of_unmatch hff, hn])
  rw [← Connection.type_eq_of_unmatch hee, ← Connection.type_eq_of_unmatch hff, ht]

theorem matchFresh_ok {g : Graph α} {fresh : String → Bool} (h : g.conflict? fresh = none) :
    g.matchFresh fresh = .ok (g.linkFresh fresh) := by
  unfold matchFresh
  rw [h]

theorem matchFresh_eq_ok {g g' : Graph α} {fresh : String → Bool}
    (h : g.matchFresh fresh = .ok g') : g.conflict? fresh = none ∧ g' = g.linkFresh fresh := by
  unfold matchFresh at h
  cases hconf : g.conflict? fresh with
  | some t => rw [hconf] at h; cases h
  | none => rw [hconf] at h; cases h; exact ⟨rfl, rfl⟩

/-- Matching completes a graph whose old modules already agree on types. -/
theorem sound_of_matchFresh {g g' : Graph α} {fresh : String → Bool} (hc : g.Coherent)
    (hl : Table.Linked g.MayLink g.connections)
    (hold : g.TypesAgree fun A B => ¬ fresh A = true ∧ ¬ fresh B = true)
    (h : g.matchFresh fresh = .ok g') : g'.Sound := by
  obtain ⟨hconf, rfl⟩ := matchFresh_eq_ok h
  refine ⟨hc.linkFresh fresh, linked_linkFresh hc hl fresh, TypesAgree.linkFresh ?_ fresh⟩
  intro chain A B c d e f _ hne hA hB he hf hn
  by_cases hF : fresh A = true ∨ fresh B = true
  · exact typesAgree_of_no_conflict hconf hF hne hA hB he hf hn
  · exact hold (not_or.mp hF) hne hA hB he hf hn

/-! ### Operations -/

theorem sound_empty : Sound (empty : Graph α) where
  coherent := ⟨fun ⟨_, hm, _⟩ => absurd hm List.not_mem_nil, fun _ hm => absurd hm List.not_mem_nil⟩
  linked := Table.linked_of_free fun i e he => by simp [empty] at he
  typed _ _ _ _ _ _ _ _ _ hA := absurd hA.choose_spec.1 List.not_mem_nil

theorem mem_byOwner {ends : List (Connection α)} {owner : String} {e : Connection α} :
    (∃ l, (owner, l) ∈ (byOwner ends).entries ∧ e ∈ l) ↔ e ∈ ends ∧ e.owner = owner := by
  have fold (owners : NameMap (List (Connection α))) :
      (∃ l, (owner, l) ∈ (ends.foldl (fun owners c => owners.append c.owner c) owners).entries ∧
        e ∈ l) ↔ (e ∈ ends ∧ e.owner = owner) ∨ ∃ l, (owner, l) ∈ owners.entries ∧ e ∈ l := by
    induction ends generalizing owners with
    | nil => simp
    | cons c rest ih =>
        rw [List.foldl_cons, ih, NameMap.mem_append, List.mem_cons]
        constructor
        · rintro (⟨he, ho⟩ | ⟨rfl, rfl⟩ | h)
          · exact .inl ⟨.inr he, ho⟩
          · exact .inl ⟨.inl rfl, rfl⟩
          · exact .inr h
        · rintro (⟨rfl | he, ho⟩ | h)
          · exact .inr (.inl ⟨ho.symm, rfl⟩)
          · exact .inl ⟨he, ho⟩
          · exact .inr (.inr h)
  refine (fold .empty).trans ⟨fun h => h.resolve_right ?_, .inl⟩
  rintro ⟨l, hl, -⟩
  exact absurd hl List.not_mem_nil

/-- Gathered ends are listed on their owners. -/
theorem coherent_gather (ends : List (Connection α)) : (gather ends).Coherent := by
  rw [gather_eq]
  refine (attachAll_coherent _ _ _ (NameMap.keys_nodup (byOwner ends))
    (fun _ _ => List.not_mem_nil) ?_ sound_empty.coherent).1
  intro x hx e he
  exact (mem_byOwner.mp ⟨x.2, hx, he⟩).2

/-- A graph of free ends is coherent, and nothing is linked in it. -/
theorem gather_spec {ends : List (Connection α)}
    (free : ∀ e ∈ ends, e.matched = false ∧ e.partner = none) :
    (gather ends).Coherent ∧ Table.Linked (gather ends).MayLink (gather ends).connections := by
  refine ⟨coherent_gather ends, ?_⟩
  rw [gather_eq]
  refine attachAll_linked _ _ _ (NameMap.keys_nodup (byOwner ends)) (fun _ _ => List.not_mem_nil)
    ?_ sound_empty.linked
  intro x hx e he
  exact free e (mem_byOwner.mp ⟨x.2, hx, he⟩).1

theorem sound_ofConnections {ends : List (Connection α)} {g : Graph α}
    (free : ∀ e ∈ ends, e.matched = false ∧ e.partner = none)
    (h : ofConnections ends = .ok g) : g.Sound := by
  obtain ⟨hc, hl⟩ := gather_spec free
  refine sound_of_matchFresh hc hl ?_ h
  intro chain A B c d e f hold
  simp at hold

theorem addModule_eq {g g' : Graph α} {name kind : String} {id : ModuleId}
    (h : g.addModule name kind = .ok (id, g')) :
    name ∉ g.modules.keys ∧ g' = g.attach name (Module.new g.nextModuleId kind) [] := by
  unfold addModule at h
  split at h
  · cases h
  · next hnew =>
    cases h
    refine ⟨fun hm => hnew (NameMap.contains_iff.mpr hm), ?_⟩
    simp [attach, listFamily, Module.new]

theorem lists_attach_nil {g : Graph α} {name : String} (hnew : name ∉ g.modules.keys) {m : Module}
    {chain : Bool} {A : String} {c : ConnectionId} :
    (g.attach name m []).Lists chain A c ↔ g.Lists chain A c := by
  refine (lists_attach hnew).trans (or_iff_left ?_)
  rintro ⟨-, hc⟩
  obtain ⟨e, -, he, -⟩ := mem_listFamily.mp hc
  simp at he

theorem connections_attach_nil (g : Graph α) (name : String) (m : Module) :
    (g.attach name m []).connections = g.connections := by simp [attach]

theorem Sound.attach_empty {g : Graph α} (h : g.Sound) {name : String}
    (hnew : name ∉ g.modules.keys) (m : Module) : (g.attach name m []).Sound := by
  refine ⟨h.coherent.attach hnew (by simp), linked_attach h.linked hnew (by simp), ?_⟩
  intro chain A B c d e f _ hne hA hB he hf hn
  rw [connection?, connections_attach_nil] at he hf
  exact h.typed trivial hne ((lists_attach_nil hnew).mp hA) ((lists_attach_nil hnew).mp hB) he hf hn

theorem mem_freedEnds {g : Graph α} (hg : g.Coherent) {name : String} {m : Module}
    (hm : (name, m) ∈ g.modules.entries) {e : Connection α} (he : e ∈ g.freedEnds m) :
    e.owner = name ∧ e.matched = false ∧ e.partner = none := by
  obtain ⟨c, hc, hce⟩ := List.mem_filterMap.mp he
  obtain ⟨x, hx, rfl⟩ := Option.map_eq_some_iff.mp hce
  obtain ⟨chain, hcf⟩ := Module.mem_ends.mp hc
  obtain ⟨y, hy, hown, -⟩ := hg.listed ⟨m, hm, hcf⟩
  rw [hx] at hy
  cases hy
  exact ⟨hown, rfl, rfl⟩

theorem merge_ok {g incoming : Graph α} (hs : g.sharedModule? incoming = none)
    (ht : g.mergeConflict? incoming = none)
    (hc : (g.juxtapose incoming).conflict? incoming.modules.contains = none) :
    g.merge incoming = .ok ((g.juxtapose incoming).linkFresh incoming.modules.contains) := by
  unfold merge
  rw [hs, ht]
  exact matchFresh_ok hc

theorem merge_eq_ok {g incoming g' : Graph α} (h : g.merge incoming = .ok g') :
    g.sharedModule? incoming = none ∧
      (g.juxtapose incoming).matchFresh incoming.modules.contains = .ok g' := by
  unfold merge at h
  cases hshared : g.sharedModule? incoming with
  | some name => rw [hshared] at h; cases h
  | none =>
      rw [hshared] at h
      cases hconf : g.mergeConflict? incoming with
      | some t => rw [hconf] at h; cases h
      | none => rw [hconf] at h; exact ⟨rfl, h⟩

theorem not_mem_keys_of_apart {g incoming : Graph α} (hshared : g.sharedModule? incoming = none) :
    ∀ x ∈ incoming.modules.entries, x.1 ∉ g.modules.keys := by
  intro x hx hm
  have := List.find?_eq_none.mp hshared x.1 (NameMap.mem_keys_of_mem hx)
  exact this (NameMap.contains_iff.mpr hm)

/-- Two graphs without a common module list side by side what each of them lists. -/
theorem juxtapose_coherent {g incoming : Graph α} (hg : g.Coherent) (hi : incoming.Coherent)
    (hshared : g.sharedModule? incoming = none) :
    (g.juxtapose incoming).Coherent ∧
      (g.juxtapose incoming).Extends g (· ∈ incoming.modules.keys) := by
  rw [juxtapose_eq]
  exact attachAll_coherent _ _ _ incoming.modules.keys_nodup (not_mem_keys_of_apart hshared)
    (fun x hx e he => (mem_freedEnds hi hx he).1) hg

theorem coherent_ofConnections {ends : List (Connection α)} {g : Graph α}
    (h : ofConnections ends = .ok g) : g.Coherent := by
  obtain ⟨-, rfl⟩ := matchFresh_eq_ok h
  exact (coherent_gather ends).linkFresh _

theorem Coherent.merge {g incoming g' : Graph α} (hg : g.Coherent) (hi : incoming.Coherent)
    (h : g.merge incoming = .ok g') : g'.Coherent := by
  obtain ⟨hshared, h⟩ := merge_eq_ok h
  obtain ⟨-, rfl⟩ := matchFresh_eq_ok h
  exact (juxtapose_coherent hg hi hshared).1.linkFresh _

/-- Two graphs without a common module stay what they are side by side, but for the links of the
incoming one. -/
theorem juxtapose_spec {g incoming : Graph α} (hg : g.Sound) (hi : incoming.Sound)
    (hshared : g.sharedModule? incoming = none) :
    (g.juxtapose incoming).Coherent ∧
      Table.Linked (g.juxtapose incoming).MayLink (g.juxtapose incoming).connections ∧
      (g.juxtapose incoming).Extends g (· ∈ incoming.modules.keys) := by
  obtain ⟨hc, hext⟩ := juxtapose_coherent hg.coherent hi.coherent hshared
  refine ⟨hc, ?_, hext⟩
  rw [juxtapose_eq]
  exact attachAll_linked _ _ _ incoming.modules.keys_nodup (not_mem_keys_of_apart hshared)
    (fun x hx e he => (mem_freedEnds hi.coherent hx he).2) hg.linked

/-- What is listed of an old module keeps its place and its match state. -/
theorem Extends.old {g g' : Graph α} {fresh : String → Prop} (hext : g'.Extends g fresh)
    (hg : g.Coherent) {chain : Bool} {A : String} {c : ConnectionId} (hA : ¬ fresh A)
    (hc : g'.Lists chain A c) : g.Lists chain A c ∧ g'.connection? c = g.connection? c := by
  have hc' := (hext.lists hA).mp hc
  obtain ⟨e, he, -⟩ := hg.listed hc'
  exact ⟨hc', (hext.kept he).trans he.symm⟩

theorem sound_merge {g incoming g' : Graph α} (hg : g.Sound) (hi : incoming.Sound)
    (h : g.merge incoming = .ok g') : g'.Sound := by
  obtain ⟨hshared, h⟩ := merge_eq_ok h
  obtain ⟨hc, hl, hext⟩ := juxtapose_spec hg hi hshared
  refine sound_of_matchFresh hc hl ?_ h
  rintro chain A B c d e f ⟨hA, hB⟩ hne hcA hdB he hf hn
  rw [NameMap.contains_iff] at hA hB
  obtain ⟨hcA, hce⟩ := hext.old hg.coherent hA hcA
  obtain ⟨hdB, hdf⟩ := hext.old hg.coherent hB hdB
  exact hg.typed trivial hne hcA hdB (hce ▸ he) (hdf ▸ hf) hn

theorem lists_trim {g : Graph α} {chain : Bool} {A : String} {c : ConnectionId} :
    g.trim.Lists chain A c ↔ g.Lists chain A c ∧ g.isIdle c = false := by
  simp only [Lists, trim, NameMap.mem_mapValues]
  constructor
  · rintro ⟨-, ⟨m, hm, rfl⟩, hc⟩
    cases chain <;> simp only [Module.family, Bool.false_eq_true, if_false, if_true,
      List.mem_filter, Bool.not_eq_true'] at hc <;> exact ⟨⟨m, hm, hc.1⟩, hc.2⟩
  · rintro ⟨⟨m, hm, hc⟩, hidle⟩
    refine ⟨_, ⟨m, hm, rfl⟩, ?_⟩
    cases chain <;> exact List.mem_filter.mpr ⟨hc, by simp [hidle]⟩

theorem Coherent.trim {g : Graph α} (h : g.Coherent) : g.trim.Coherent where
  listed hc := h.listed (lists_trim.mp hc).1
  nodup chain hm := by
    obtain ⟨m₀, hm₀, rfl⟩ := NameMap.mem_mapValues.mp hm
    have := (h.nodup chain hm₀).filter (!g.isIdle ·)
    cases chain <;> exact this

theorem sound_trim {g : Graph α} (h : g.Sound) : g.trim.Sound where
  coherent := h.coherent.trim
  linked :=
    { matched_iff := h.linked.matched_iff
      partners := fun {c p e} he hp => by
        obtain ⟨⟨chain, A, B, hA, hB, hne⟩, f, hf, hpf, rest⟩ := h.linked.partners he hp
        have busy {c : ConnectionId} {e : Connection α} (he : g.connection? c = some e)
            (hp : e.partner.isSome = true) : g.isIdle c = false := by
          simp [isIdle, he, (h.linked.matched_iff he).mpr hp]
        refine ⟨⟨chain, A, B, ?_, ?_, hne⟩, f, hf, hpf, rest⟩
        · exact lists_trim.mpr ⟨hA, busy he (by simp [hp])⟩
        · exact lists_trim.mpr ⟨hB, busy hf (by simp [hpf])⟩ }
  typed _ _ _ _ _ _ _ hF hne hA hB he hf hn :=
    h.typed hF hne (lists_trim.mp hA).1 (lists_trim.mp hB).1 he hf hn

theorem Reachable.sound {g : Graph α} (h : Reachable g) : g.Sound := by
  induction h with
  | empty => exact sound_empty
  | assembled free h => exact sound_ofConnections free h
  | added _ h ih =>
      obtain ⟨hnew, rfl⟩ := addModule_eq h
      exact ih.attach_empty hnew _
  | merged _ _ h ihg ihi => exact sound_merge ihg ihi h
  | trimmed _ ih => exact sound_trim ih

end HardwareLinker.Graph
