import Mathlib.Data.List.Perm.Subperm
import HardwareLinker.Proofs.Graph.Partners

/-!
Saturation of chains. Threading a chain never leaves a free source end beside a free sink end,
chains that new modules bring are threaded anew, and trimming only takes ends away. So a reachable
graph holds as many links of a chain as the scarcer side of it has ends.
-/

namespace HardwareLinker.Graph

variable {α : Type}

namespace Table

/-! ### What linking leaves alone -/

theorem getElem?_linkGreedily {t : Table α} {pairs : List (ConnectionId × ConnectionId)}
    {c : ConnectionId} (hc : ∀ p ∈ pairs, c ≠ p.1 ∧ c ≠ p.2) :
    (t.linkGreedily pairs)[c.slot]? = t[c.slot]? := by
  refine List.foldlRecOn pairs _ (motive := fun u : Table α => u[c.slot]? = t[c.slot]?) rfl
    fun u hu p hp => ?_
  dsimp only
  split
  · exact (getElem?_link_of_ne (hc p hp).1 (hc p hp).2).trans hu
  · exact hu

theorem getElem?_linkFirst {t : Table α} {a c : ConnectionId} {candidates : List ConnectionId}
    (ha : c ≠ a) (hc : c ∉ candidates) : (t.linkFirst a candidates)[c.slot]? = t[c.slot]? := by
  unfold linkFirst
  split
  · next b hb => exact getElem?_link_of_ne ha fun e => hc (e ▸ List.mem_of_find?_eq_some hb)
  · rfl

theorem getElem?_threadChain {t : Table α} {members : List (List ConnectionId)} {c : ConnectionId}
    (hc : c ∉ members.flatten) : (t.threadChain members)[c.slot]? = t[c.slot]? := by
  rw [threadChain_eq]
  refine List.foldlRecOn _ _ (motive := fun u : Table α => u[c.slot]? = t[c.slot]?) ?_
    fun u hu carrier hm => ?_
  · rw [getElem?_unlinkAll, if_neg hc]
  · refine List.foldlRecOn _ _ (motive := fun u : Table α => u[c.slot]? = t[c.slot]?) hu
      fun u hu a ha => ?_
    have hne : c ≠ a := fun e =>
      hc (List.mem_flatten.mpr ⟨_, List.fst_mem_of_mem_zipIdx hm, e ▸ ha⟩)
    split
    · exact (getElem?_linkFirst hne fun h => hc (mem_of_mem_ringFrom h)).trans hu
    · exact hu

theorem linkable_congr {t t' : Table α} {a b : ConnectionId} (ha : t'[a.slot]? = t[a.slot]?)
    (hb : t'[b.slot]? = t[b.slot]?) : t'.linkable a b = t.linkable a b := by
  rw [linkable, linkable, ha, hb]

theorem isSource_eq_of_freed_eq {t t' : Table α} (h : t'.freed = t.freed) (c : ConnectionId) :
    t'.isSource c = t.isSource c := by
  have kept (t : Table α) : t.isSource c = t.freed[c.slot]?.any (·.kind.isSource) := by
    rw [freed_getElem?, Option.any_map]
    rfl
  rw [kept, kept, h]

/-! ### Linking uses ends up -/

/-- Nothing can be linked in the one table that could not be in the other. -/
def Narrows (t' t : Table α) : Prop := ∀ a b, t'.linkable a b = true → t.linkable a b = true

theorem getElem?_of_free_link {t : Table α} {a b c : ConnectionId} {e : Connection α}
    (he : (t.link a b)[c.slot]? = some e) (hfree : e.matched = false) :
    c ≠ a ∧ c ≠ b ∧ t[c.slot]? = some e := by
  have linked {x : Option (Connection α)} {p : ConnectionId} :
      x.map (·.linkTo p) ≠ some e := by
    rintro h
    obtain ⟨y, -, rfl⟩ := Option.map_eq_some_iff.mp h
    cases hfree
  rw [getElem?_link] at he
  split at he
  · exact absurd he linked
  · next hb =>
    split at he
    · exact absurd he linked
    · next ha => exact ⟨fun e => ha (e ▸ rfl), fun e => hb (e ▸ rfl), he⟩

theorem narrows_link (t : Table α) (a b : ConnectionId) : (t.link a b).Narrows t := by
  intro x y h
  obtain ⟨e, f, he, hf, hn, hef, hff, hk⟩ := linkable_iff.mp h
  exact linkable_iff.mpr ⟨e, f, (getElem?_of_free_link he hef).2.2,
    (getElem?_of_free_link hf hff).2.2, hn, hef, hff, hk⟩

theorem narrows_linkFirst (t : Table α) (a : ConnectionId) (candidates : List ConnectionId) :
    (t.linkFirst a candidates).Narrows t := by
  unfold linkFirst
  split
  · exact narrows_link t a _
  · exact fun _ _ h => h

theorem narrows_threadCarrier (members : List (List ConnectionId)) (t : Table α)
    (carrier : List ConnectionId × Nat) : (threadCarrier members t carrier).Narrows t := by
  refine List.foldlRecOn _ _ (motive := fun u : Table α => u.Narrows t) (fun _ _ h => h)
    fun u hu c _ => ?_
  split
  · exact fun a b h => hu a b (narrows_linkFirst u c _ a b h)
  · exact hu

/-- A source end that had its turn is linked, or there is no free sink for it. -/
theorem not_linkable_linkFirst (t : Table α) (a : ConnectionId) {b : ConnectionId}
    {candidates : List ConnectionId} (hb : b ∈ candidates) :
    (t.linkFirst a candidates).linkable a b = false := by
  rw [Bool.eq_false_iff]
  intro h
  unfold linkFirst at h
  split at h
  · obtain ⟨e, -, he, -, -, hef, -⟩ := linkable_iff.mp h
    exact (getElem?_of_free_link he hef).1 rfl
  · next hnone => exact List.find?_eq_none.mp hnone b hb h

/-- What one step of a fold brings about holds at its end if the other steps keep it. -/
theorem foldl_settles {β : Type} {step : Table α → β → Table α} {P Q : Table α → Prop}
    {l : List β} {x : β} (hx : x ∈ l) (before : ∀ t y, Q t → Q (step t y))
    (settle : ∀ t, Q t → P (step t x)) (after : ∀ t y, P t → P (step t y)) {t : Table α}
    (ht : Q t) : P (l.foldl step t) := by
  obtain ⟨first, last, rfl⟩ := List.append_of_mem hx
  rw [List.foldl_append, List.foldl_cons]
  refine List.foldlRecOn last _ (settle _ ?_) fun u hu y _ => after u y hu
  exact List.foldlRecOn first _ ht fun u hu y _ => before u y hu

theorem mem_ringFrom {members : List (List ConnectionId)} (i : Nat) {c : ConnectionId} :
    c ∈ ringFrom members i ↔ c ∈ members.flatten := by
  refine ⟨mem_of_mem_ringFrom, fun h => ?_⟩
  obtain ⟨ends, hm, hc⟩ := List.mem_flatten.mp h
  rw [← List.take_append_drop (i + 1) members, List.mem_append] at hm
  exact List.mem_flatten.mpr ⟨ends, List.mem_append.mpr hm.symm, hc⟩

theorem not_linkable_of_isSource {t : Table α} {members : List (List ConnectionId)}
    {a b : ConnectionId} (ha : a ∈ members.flatten) (hb : b ∈ members.flatten)
    (hsource : t.isSource a = true) : (t.threadChain members).linkable a b = false := by
  have stays {u u' : Table α} (hn : u'.Narrows u) (h : u.linkable a b = false) :
      u'.linkable a b = false :=
    Bool.eq_false_iff.mpr fun h' => by rw [hn a b h'] at h; cases h
  obtain ⟨ends, hm, hae⟩ := List.mem_flatten.mp ha
  obtain ⟨i, hi⟩ := List.mem_iff_getElem?.mp hm
  have hcarrier : (ends, i) ∈ members.zipIdx := List.mem_zipIdx_iff_getElem?.mpr hi
  rw [threadChain_eq]
  refine foldl_settles (P := fun u => u.linkable a b = false)
    (Q := fun u => u.isSource a = true) hcarrier (fun u carrier hu => ?_) (fun u hu => ?_)
    (fun u carrier => stays (narrows_threadCarrier members u carrier)) ?_
  · rwa [isSource_eq_of_freed_eq (freed_threadCarrier members u carrier)]
  · refine foldl_settles (P := fun u => u.linkable a b = false)
      (Q := fun u => u.isSource a = true) hae (fun u c hu => ?_) (fun u hu => ?_)
      (fun u c hu => ?_) hu
    · split
      · rwa [isSource_eq_of_freed_eq (freed_linkFirst u c _)]
      · exact hu
    · rw [if_pos hu]
      exact not_linkable_linkFirst u a ((mem_ringFrom i).mpr hb)
    · split
      · exact stays (narrows_linkFirst u c _) hu
      · exact hu
  · rwa [isSource_eq_of_freed_eq (freed_unlinkAll t members.flatten)]

theorem linkable_comm (t : Table α) (a b : ConnectionId) : t.linkable a b = t.linkable b a := by
  have half {a b : ConnectionId} (h : t.linkable a b = true) : t.linkable b a = true := by
    obtain ⟨e, f, he, hf, hn, hef, hff, hk⟩ := linkable_iff.mp h
    exact linkable_iff.mpr ⟨f, e, hf, he, hn.symm, hff, hef,
      (Connection.Kind.complements_comm ..).trans hk⟩
  exact Bool.eq_iff_iff.mpr ⟨half, half⟩

/-- A chain that was threaded cannot be linked any further. -/
theorem not_linkable_threadChain (t : Table α) {members : List (List ConnectionId)}
    {a b : ConnectionId} (ha : a ∈ members.flatten) (hb : b ∈ members.flatten) :
    (t.threadChain members).linkable a b = false := by
  rw [Bool.eq_false_iff]
  intro h
  obtain ⟨e, f, he, hf, -, -, -, hk⟩ := linkable_iff.mp h
  have source {c : ConnectionId} {x : Connection α}
      (hx : (t.threadChain members)[c.slot]? = some x) (hs : x.kind.isSource = true) :
      t.isSource c = true := by
    rw [← isSource_eq_of_freed_eq (freed_threadChain t members), isSource, hx]
    exact hs
  by_cases hs : e.kind.isSource = true
  · rw [not_linkable_of_isSource ha hb (source he hs)] at h
    cases h
  · have hne := (Connection.Kind.complements_iff.mp hk).2
    have hs' : f.kind.isSource = true := by
      rw [Bool.not_eq_true] at hs
      rw [hs] at hne
      exact Bool.eq_true_of_not_eq_false hne.symm
    rw [linkable_comm, not_linkable_of_isSource hb ha (source hf hs')] at h
    cases h

end Table

/-! ### Settled graphs -/

/-- No two listed ends of a chain could still be linked. -/
def Settled (g : Graph α) : Prop :=
  ∀ ⦃A B : String⦄ ⦃c d : ConnectionId⦄, g.Lists true A c → g.Lists true B d →
    Table.linkable g.connections c d = false

/-- A chain end that is not threaded anew keeps its match state, listed or not. -/
theorem connection?_linkFresh_chain {g : Graph α} (hg : g.Coherent) {fresh : String → Bool}
    {c : ConnectionId} {e : Connection α} (he : g.connection? c = some e)
    (hk : e.kind.isChain = true) (hold : e.name ∉ g.freshChains fresh) :
    (g.linkFresh fresh).connection? c = some e := by
  have channels : (Table.linkGreedily g.connections (g.channelCandidates fresh))[c.slot]? =
      some e := by
    refine (Table.getElem?_linkGreedily fun p hp => ?_).trans he
    obtain ⟨A', B', mA, mB, hAB, -, hpA, hpB⟩ := mem_channelCandidates.mp hp
    obtain ⟨hA, hB⟩ := mem_of_mem_orderedPairs hAB
    have other {B : String} {m : Module} {d : ConnectionId} (hm : (B, m) ∈ g.modules.entries)
        (hd : d ∈ m.channels) : c ≠ d := by
      intro hcd
      have listed : g.Lists false B d := ⟨m, hm, hd⟩
      obtain ⟨x, hx, -, hkx⟩ := hg.listed listed
      cases (hcd ▸ hx).symm.trans he
      exact Bool.noConfusion (hkx.symm.trans hk)
    exact ⟨other hA hpA, other hB hpB⟩
  refine List.foldlRecOn _ _ (motive := fun u : Table α => u[c.slot]? = some e) channels
    fun u hu chain hchain => (Table.getElem?_threadChain fun hm => ?_).trans hu
  obtain ⟨-, x, hx, rfl⟩ := mem_flatten_chainEnds.mp hm
  exact hold (Option.some.inj (he.symm.trans hx) ▸ hchain)

theorem connection?_linkFresh {g : Graph α} (hg : g.Coherent) {fresh : String → Bool} {A : String}
    {c : ConnectionId} (hc : g.Lists true A c)
    (hold : ∀ e, g.connection? c = some e → e.name ∉ g.freshChains fresh) :
    (g.linkFresh fresh).connection? c = g.connection? c := by
  obtain ⟨e, he, -, hk⟩ := hg.listed hc
  rw [he]
  exact connection?_linkFresh_chain hg he hk (hold e he)

theorem name_eq_of_linkable {g : Graph α} {fresh : String → Bool} {c d : ConnectionId}
    {e f : Connection α} (he : g.connection? c = some e) (hf : g.connection? d = some f)
    (hl : Table.linkable (g.linkFresh fresh).connections c d = true) : e.name = f.name := by
  obtain ⟨x, y, hx, hy, hxy, -⟩ := Table.linkable_iff.mp hl
  obtain ⟨e', he', hxe⟩ := Table.get_of_freed_eq (freed_linkFresh g fresh) hx
  obtain ⟨f', hf', hyf⟩ := Table.get_of_freed_eq (freed_linkFresh g fresh) hy
  cases he.symm.trans he'
  cases hf.symm.trans hf'
  rw [Connection.name_eq_of_unmatch hxe, Connection.name_eq_of_unmatch hyf, hxy]

/-- Threading settles the chains of new modules; the others are as settled as they were. -/
theorem settled_linkFresh {g : Graph α} (hg : g.Coherent) {fresh : String → Bool}
    (hold : ∀ ⦃A B : String⦄ ⦃c d : ConnectionId⦄, ¬ fresh A = true → ¬ fresh B = true →
      g.Lists true A c → g.Lists true B d → Table.linkable g.connections c d = false) :
    (g.linkFresh fresh).Settled := by
  intro A B c d hc hd
  rw [lists_linkFresh] at hc hd
  obtain ⟨e, he, -⟩ := hg.listed hc
  obtain ⟨f, hf, -⟩ := hg.listed hd
  rw [Bool.eq_false_iff]
  intro hl
  have hn := name_eq_of_linkable he hf hl
  by_cases hchain : e.name ∈ g.freshChains fresh
  · have hce : c ∈ (g.chainEnds e.name).flatten := mem_flatten_chainEnds.mpr ⟨⟨A, hc⟩, e, he, rfl⟩
    have hde : d ∈ (g.chainEnds e.name).flatten :=
      mem_flatten_chainEnds.mpr ⟨⟨B, hd⟩, f, hf, hn.symm⟩
    have settled : Table.linkable (g.linkFresh fresh).connections c d = false := by
      refine Table.foldl_settles (P := fun u => u.linkable c d = false) (Q := fun _ => True) hchain
        (fun _ _ _ => trivial) (fun u _ => Table.not_linkable_threadChain u hce hde)
        (fun u chain hu => ?_) trivial
      -- Another chain has neither of the two ends.
      by_cases hsame : chain = e.name
      · subst hsame
        exact Table.not_linkable_threadChain u hce hde
      · refine (Table.linkable_congr (Table.getElem?_threadChain fun hm => hsame ?_)
          (Table.getElem?_threadChain fun hm => hsame ?_)).trans hu
        · obtain ⟨-, e', he', rfl⟩ := mem_flatten_chainEnds.mp hm
          rw [Option.some.inj (he.symm.trans he')]
        · obtain ⟨-, f', hf', rfl⟩ := mem_flatten_chainEnds.mp hm
          rw [hn, Option.some.inj (hf.symm.trans hf')]
    rw [settled] at hl
    cases hl
  · have keptC := connection?_linkFresh hg hc fun e' he' =>
      Option.some.inj (he.symm.trans he') ▸ hchain
    have keptD := connection?_linkFresh hg hd fun f' hf' =>
      Option.some.inj (hf.symm.trans hf') ▸ hn ▸ hchain
    have old {A : String} {c : ConnectionId} {e : Connection α} (hc : g.Lists true A c)
        (he : g.connection? c = some e) (hchain : e.name ∉ g.freshChains fresh) :
        ¬ fresh A = true := fun hA => hchain (mem_freshChains hA hc he)
    rw [Table.linkable_congr keptC keptD,
      hold (old hc he hchain) (old hd hf (hn ▸ hchain)) hc hd] at hl
    cases hl

theorem Reachable.settled {g : Graph α} (h : g.Reachable) : g.Settled := by
  induction h with
  | empty => exact fun _ _ _ _ ⟨_, hm, _⟩ => absurd hm List.not_mem_nil
  | assembled free h =>
      obtain ⟨-, rfl⟩ := matchFresh_eq_ok h
      exact settled_linkFresh (gather_spec free).1 fun _ _ _ _ hA => absurd rfl hA
  | added _ h ih =>
      obtain ⟨hnew, rfl⟩ := addModule_eq h
      intro A B c d hc hd
      rw [connections_attach_nil]
      exact ih ((lists_attach_nil hnew).mp hc) ((lists_attach_nil hnew).mp hd)
  | merged hg hi h ih =>
      obtain ⟨hshared, h⟩ := merge_eq_ok h
      obtain ⟨-, rfl⟩ := matchFresh_eq_ok h
      obtain ⟨hc, -, hext⟩ := juxtapose_spec hg.sound hi.sound hshared
      refine settled_linkFresh hc fun A B c d hA hB hcA hdB => ?_
      rw [NameMap.contains_iff] at hA hB
      obtain ⟨hcA, hce⟩ := hext.old hg.sound.coherent hA hcA
      obtain ⟨hdB, hde⟩ := hext.old hg.sound.coherent hB hdB
      exact (Table.linkable_congr hce hde).trans (ih hcA hdB)
  | trimmed _ ih => exact fun _ _ _ _ hc hd => ih (lists_trim.mp hc).1 (lists_trim.mp hd).1

/-! ### Links of a chain -/

/-- The source or the sink ends of a chain that a module lists. -/
def chainEndsOf (g : Graph α) (m : Module) (chain : String) (source : Bool) : List ConnectionId :=
  m.chains.filter fun c => (g.connection? c).any fun e =>
    e.name == chain && e.kind.isSource == source

/-- The source or the sink ends of a chain that a graph lists. -/
def chainSide (g : Graph α) (chain : String) (source : Bool) : List ConnectionId :=
  g.modules.values.flatMap fun m => g.chainEndsOf m chain source

def carries (g : Graph α) (chain name : String) : Bool :=
  (g.module? name).any fun m => (g.chainNamesOf m).contains chain

/-- Every carrier lists one source end and one sink end of the chain. -/
def CarriedOnce (g : Graph α) (chain : String) : Prop :=
  ∀ ⦃name : String⦄ ⦃m : Module⦄, g.module? name = some m → chain ∈ g.chainNamesOf m →
    (g.chainEndsOf m chain true).length = 1 ∧ (g.chainEndsOf m chain false).length = 1

theorem mem_chainNamesOf {g : Graph α} {m : Module} {chain : String} :
    chain ∈ g.chainNamesOf m ↔ ∃ c ∈ m.chains, ∃ e, g.connection? c = some e ∧ e.name = chain := by
  simp [chainNamesOf]

theorem carries_iff {g : Graph α} {chain name : String} :
    g.carries chain name = true ↔ ∃ c e, g.Lists true name c ∧ g.connection? c = some e ∧
      e.name = chain := by
  simp only [carries, Option.any_eq_true, List.contains_iff_mem, mem_chainNamesOf]
  constructor
  · rintro ⟨m, hm, c, hc, e, he, hn⟩
    exact ⟨c, e, ⟨m, NameMap.find?_eq_some.mp hm, hc⟩, he, hn⟩
  · rintro ⟨c, e, ⟨m, hm, hc⟩, he, hn⟩
    exact ⟨m, NameMap.find?_eq_some.mpr hm, c, hc, e, he, hn⟩

/-- A source end of a chain and the sink end that it is matched with. -/
def ChainPair (g : Graph α) (chain : String) (s k : ConnectionId) : Prop :=
  ∃ e, g.connection? s = some e ∧ e.kind.isChain = true ∧ e.name = chain ∧
    e.kind.isSource = true ∧ e.partner = some k

def isMatched (g : Graph α) (c : ConnectionId) : Bool := (g.connection? c).any (·.matched)

/-- The partner of an end, or the end itself where it has none. -/
def mate (g : Graph α) (c : ConnectionId) : ConnectionId := (g.partner? c).getD c

theorem mem_chainSide {g : Graph α} {chain : String} {source : Bool} {c : ConnectionId} :
    c ∈ g.chainSide chain source ↔ (∃ A, g.Lists true A c) ∧
      ∃ e, g.connection? c = some e ∧ e.name = chain ∧ e.kind.isSource = source := by
  simp only [chainSide, chainEndsOf, List.mem_flatMap, NameMap.mem_values, List.mem_filter,
    Option.any_eq_true, Bool.and_eq_true, beq_iff_eq]
  constructor
  · rintro ⟨m, ⟨A, hm⟩, hc, he⟩
    exact ⟨⟨A, m, hm, hc⟩, he⟩
  · rintro ⟨⟨A, m, hm, hc⟩, he⟩
    exact ⟨m, ⟨A, hm⟩, hc, he⟩

theorem Coherent.chainSide_nodup {g : Graph α} (hg : g.Coherent) (chain : String) (source : Bool) :
    (g.chainSide chain source).Nodup := by
  rw [chainSide, NameMap.values, List.flatMap_map, List.nodup_flatMap]
  refine ⟨fun x hx => (hg.nodup true hx).filter _, g.modules.ascending.imp_of_mem ?_⟩
  intro x y hx hy hlt c hcx hcy
  have listed {x : String × Module} (hx : x ∈ g.modules.entries)
      (hc : c ∈ g.chainEndsOf x.2 chain source) : g.Lists true x.1 c :=
    ⟨x.2, hx, (List.mem_filter.mp hc).1⟩
  have hsame := (hg.owner_unique (listed hx hcx) (listed hy hcy)).1
  exact String.lt_irrefl _ (hsame ▸ hlt)

theorem Sound.mate_spec {g : Graph α} (hg : g.Sound) {chain : String} {source : Bool}
    {c : ConnectionId} (hc : c ∈ (g.chainSide chain source).filter g.isMatched) :
    g.partner? c = some (g.mate c) ∧
      g.mate c ∈ (g.chainSide chain (!source)).filter g.isMatched := by
  obtain ⟨hc, hm⟩ := List.mem_filter.mp hc
  obtain ⟨⟨A, hA⟩, e, he, rfl, rfl⟩ := mem_chainSide.mp hc
  rw [isMatched, he, Option.any_some] at hm
  obtain ⟨p, hp⟩ := Option.isSome_iff_exists.mp ((hg.linked.matched_iff he).mp hm)
  have hpartner : g.partner? c = some p := partner?_eq_some.mpr ⟨e, he, hp⟩
  have hmate : g.mate c = p := by rw [mate, hpartner, Option.getD_some]
  rw [hmate]
  obtain ⟨⟨family, A', B, hA', hB, -⟩, f, hf, hfp, hn, hk⟩ := hg.partners he hp
  have hfamily : true = family := (hg.coherent.owner_unique hA hA').2
  subst hfamily
  have hfm : f.matched = true := (hg.linked.matched_iff hf).mpr (by rw [hfp]; rfl)
  have hside : f.kind.isSource = !e.kind.isSource :=
    Bool.eq_not.mpr (Connection.Kind.complements_iff.mp hk).2.symm
  refine ⟨hpartner, List.mem_filter.mpr ⟨mem_chainSide.mpr ⟨⟨B, hB⟩, f, hf, hn.symm, hside⟩, ?_⟩⟩
  rw [isMatched, hf]
  exact hfm

theorem Sound.matched_le {g : Graph α} (hg : g.Sound) (chain : String) (source : Bool) :
    ((g.chainSide chain source).filter g.isMatched).length ≤
      ((g.chainSide chain (!source)).filter g.isMatched).length := by
  have apart : (((g.chainSide chain source).filter g.isMatched).map g.mate).Nodup := by
    refine List.Nodup.map_on (fun c hc d hd he => ?_)
      ((hg.coherent.chainSide_nodup chain source).filter _)
    have back := hg.partner_symm (hg.mate_spec hc).1
    rw [he, hg.partner_symm (hg.mate_spec hd).1] at back
    exact (Option.some.inj back).symm
  rw [← List.length_map g.mate]
  refine (List.Nodup.subperm apart fun d hd => ?_).length_le
  obtain ⟨c, hc, rfl⟩ := List.mem_map.mp hd
  exact (hg.mate_spec hc).2

/-- One side of a chain is matched altogether. -/
theorem Settled.exhausted {g : Graph α} (h : g.Settled) (hg : g.Coherent) (chain : String) :
    (g.chainSide chain true).filter (!g.isMatched ·) = [] ∨
      (g.chainSide chain false).filter (!g.isMatched ·) = [] := by
  have free {source : Bool} {c : ConnectionId}
      (hc : c ∈ (g.chainSide chain source).filter (!g.isMatched ·)) :
      ∃ A e, g.Lists true A c ∧ g.connection? c = some e ∧ e.name = chain ∧
        e.kind.isSource = source ∧ e.matched = false := by
    obtain ⟨hc, hm⟩ := List.mem_filter.mp hc
    obtain ⟨⟨A, hA⟩, e, he, hn, hk⟩ := mem_chainSide.mp hc
    rw [isMatched, he] at hm
    exact ⟨A, e, hA, he, hn, hk, by simpa using hm⟩
  by_contra hboth
  obtain ⟨hs, hk⟩ := not_or.mp hboth
  obtain ⟨s, hs⟩ := List.exists_mem_of_ne_nil _ hs
  obtain ⟨k, hk⟩ := List.exists_mem_of_ne_nil _ hk
  obtain ⟨A, e, hA, he, hne, hke, hme⟩ := free hs
  obtain ⟨B, f, hB, hf, hnf, hkf, hmf⟩ := free hk
  have hlink : Table.linkable g.connections s k = true := by
    refine Table.linkable_iff.mpr ⟨e, f, he, hf, hne.trans hnf.symm, hme, hmf, ?_⟩
    have hce := (hg.listed_on_owner hA he).2.1
    have hcf := (hg.listed_on_owner hB hf).2.1
    exact Connection.Kind.complements_iff.mpr ⟨hce.trans hcf.symm, by rw [hke, hkf]; decide⟩
  rw [h hA hB] at hlink
  cases hlink

/-- As many ends are matched on either side of a chain as its scarcer side has. -/
theorem Reachable.length_matched {g : Graph α} (h : g.Reachable) (chain : String) (source : Bool) :
    ((g.chainSide chain source).filter g.isMatched).length =
      min (g.chainSide chain true).length (g.chainSide chain false).length := by
  have hs := h.sound
  have split (source : Bool) :=
    List.length_eq_length_filter_add g.isMatched (l := g.chainSide chain source)
  have hle := hs.matched_le chain true
  have hge := hs.matched_le chain false
  rw [Bool.not_true] at hle
  rw [Bool.not_false] at hge
  have hT := split true
  have hF := split false
  have hfree := (h.settled.exhausted hs.coherent chain).imp
    (congrArg List.length) (congrArg List.length)
  rw [List.length_nil] at hfree
  cases source <;> omega

/-- The links of a chain, from source to sink. -/
theorem Reachable.chainPairs {g : Graph α} (h : g.Reachable) (chain : String) :
    ∃ pairs : List (ConnectionId × ConnectionId), pairs.Nodup ∧
      (∀ s k, (s, k) ∈ pairs ↔ g.ChainPair chain s k) ∧
      pairs.length = min (g.chainSide chain true).length (g.chainSide chain false).length := by
  have hs := h.sound
  refine ⟨((g.chainSide chain true).filter g.isMatched).map fun c => (c, g.mate c),
    ((hs.coherent.chainSide_nodup chain true).filter _).map fun c d he => (Prod.mk.inj he).1,
    fun s k => ⟨fun hsk => ?_, fun ⟨e, he, hc, hn, hk, hp⟩ => ?_⟩, ?_⟩
  · obtain ⟨c, hc, hck⟩ := List.mem_map.mp hsk
    cases hck
    obtain ⟨⟨A, hA⟩, e, he, hn, hk⟩ := mem_chainSide.mp (List.mem_filter.mp hc).1
    obtain ⟨e', he', hp⟩ := partner?_eq_some.mp (hs.mate_spec hc).1
    cases he.symm.trans he'
    exact ⟨e, he, (hs.coherent.listed_on_owner hA he).2.1, hn, hk, hp⟩
  · obtain ⟨⟨family, A, B, hA, -⟩, -⟩ := hs.partners he hp
    have hfamily : family = true := (hs.coherent.listed_on_owner hA he).2.1.symm.trans hc
    have hm : g.isMatched s = true := by
      rw [isMatched, he]
      exact (hs.linked.matched_iff he).mpr (by rw [hp]; rfl)
    refine List.mem_map.mpr ⟨s, List.mem_filter.mpr
      ⟨mem_chainSide.mpr ⟨⟨A, hfamily ▸ hA⟩, e, he, hn, hk⟩, hm⟩, ?_⟩
    rw [mate, partner?_eq_some.mpr ⟨e, he, hp⟩]
    rfl
  · rw [List.length_map]
    exact h.length_matched chain true

end HardwareLinker.Graph
