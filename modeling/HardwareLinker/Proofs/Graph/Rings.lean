import Mathlib.Data.List.Rotate
import HardwareLinker.Proofs.Graph.Converged
import HardwareLinker.Proofs.Tree.Thread

/-!
Chain rings. A chain whose carriers list one source end and one sink end each is threaded into one
ring: every carrier feeds the next one in name order, and the last one feeds the first. Threading
frees the whole chain before it links anything, so the ring does not show in which order the
carriers were merged.
-/

namespace HardwareLinker

theorem Thread.cycle_eq_zip (p : List String) : cycle p = p.zip (p.rotate 1) := by
  have along (a b : String) (rest : List String) :
      steps (a :: rest) ++ bridge (a :: rest) [b] = (a :: rest).zip (rest ++ [b]) := by
    induction rest generalizing a with
    | nil => rfl
    | cons c rest ih =>
        have last : bridge (a :: c :: rest) [b] = bridge (c :: rest) [b] := by
          simp [bridge]
        simp [steps, last, ih]
  cases p with
  | nil => rfl
  | cons a rest =>
      rw [List.rotate_cons_succ, List.rotate_zero, ← along a a rest]
      rfl

namespace Graph

variable {α : Type}

namespace Table

/-! ### Links laid one after another -/

def linkAll (t : Table α) (pairs : List (ConnectionId × ConnectionId)) : Table α :=
  pairs.foldl (fun t p => t.link p.1 p.2) t

/-- No end is in two pairs, or twice in one. -/
def Apart (pairs : List (ConnectionId × ConnectionId)) : Prop :=
  (pairs.map Prod.fst ++ pairs.map Prod.snd).Nodup

theorem apart_cons {p : ConnectionId × ConnectionId} {pairs : List (ConnectionId × ConnectionId)}
    (h : Apart (p :: pairs)) : p.1 ≠ p.2 ∧ Apart pairs ∧
      ∀ q ∈ pairs, (q.1 ≠ p.1 ∧ q.1 ≠ p.2) ∧ q.2 ≠ p.1 ∧ q.2 ≠ p.2 := by
  unfold Apart at h
  rw [List.map_cons, List.map_cons, List.cons_append, List.nodup_cons, List.nodup_middle,
    List.nodup_cons] at h
  obtain ⟨first, second, rest⟩ := h
  refine ⟨fun e => first (by simp [e]), rest, fun q hq => ?_⟩
  have hfst : q.1 ∈ pairs.map Prod.fst := List.mem_map_of_mem hq
  have hsnd : q.2 ∈ pairs.map Prod.snd := List.mem_map_of_mem hq
  refine ⟨⟨fun e => first ?_, fun e => second ?_⟩, fun e => first ?_, fun e => second ?_⟩ <;>
    rw [← e] <;> simp only [List.mem_append, List.mem_cons, hfst, hsnd, true_or, or_true]

theorem getElem?_linkAll_of_ne {t : Table α} {pairs : List (ConnectionId × ConnectionId)}
    {c : ConnectionId} (hc : ∀ p ∈ pairs, c ≠ p.1 ∧ c ≠ p.2) :
    (t.linkAll pairs)[c.slot]? = t[c.slot]? := by
  refine List.foldlRecOn pairs _ (motive := fun u : Table α => u[c.slot]? = t[c.slot]?) rfl ?_
  intro u hu p hp
  exact (getElem?_link_of_ne (hc p hp).1 (hc p hp).2).trans hu

/-- Of pairs without common ends each ends up linked. -/
theorem getElem?_linkAll {t : Table α} {pairs : List (ConnectionId × ConnectionId)}
    (h : Apart pairs) {a b : ConnectionId} (hab : (a, b) ∈ pairs) :
    (t.linkAll pairs)[a.slot]? = t[a.slot]?.map (·.linkTo b) ∧
      (t.linkAll pairs)[b.slot]? = t[b.slot]?.map (·.linkTo a) := by
  induction pairs generalizing t with
  | nil => cases hab
  | cons p rest ih =>
      obtain ⟨hne, hrest, apart⟩ := apart_cons h
      change (linkAll (t.link p.1 p.2) rest)[a.slot]? = _ ∧
        (linkAll (t.link p.1 p.2) rest)[b.slot]? = _
      cases List.mem_cons.mp hab with
      | inl first =>
          subst first
          have hslot : a.slot ≠ b.slot := fun e => hne (ConnectionId.slot_inj.mp e)
          rw [getElem?_linkAll_of_ne fun q hq => ⟨(apart q hq).1.1.symm, (apart q hq).2.1.symm⟩,
            getElem?_linkAll_of_ne fun q hq => ⟨(apart q hq).1.2.symm, (apart q hq).2.2.symm⟩]
          simp [getElem?_link, hslot, hslot.symm]
      | inr later =>
          obtain ⟨⟨ha, ha'⟩, hb, hb'⟩ := apart (a, b) later
          rw [(ih hrest later).1, (ih hrest later).2, getElem?_link_of_ne ha ha',
            getElem?_link_of_ne hb hb']
          exact ⟨rfl, rfl⟩

/-! ### Threading carriers of one source and one sink -/

theorem not_linkable_of_sources {t : Table α} {a b : ConnectionId} (ha : t.isSource a = true)
    (hb : t.isSource b = true) : t.linkable a b = false := by
  rw [Bool.eq_false_iff]
  intro h
  obtain ⟨x, y, hx, hy, -, -, -, hk⟩ := linkable_iff.mp h
  simp only [isSource, hx, hy, Option.any_some] at ha hb
  exact (Connection.Kind.complements_iff.mp hk).2 (ha.trans hb.symm)

/-- The search for a sink begins with the next carrier, whose sink is free. -/
theorem find?_ringFrom {t : Table α} {members : List (List ConnectionId)} {i : Nat}
    (hi : i < members.length) {ends : List ConnectionId} {s s' k' : ConnectionId}
    (hnext : members[(i + 1) % members.length]? = some ends) (hends : ends.Perm [s', k'])
    (hs : t.isSource s = true) (hs' : t.isSource s' = true) (hk : t.linkable s k' = true) :
    (ringFrom members i).find? (t.linkable s) = some k' := by
  have around : ringFrom members i = (members.rotate (i + 1)).flatten := by
    rw [ringFrom, List.rotate_eq_drop_append_take (by omega)]
  have head : (members.rotate (i + 1))[0]? = some ends := by
    rw [List.getElem?_rotate (by omega), Nat.zero_add, hnext]
  obtain ⟨others, hothers⟩ : ∃ others, members.rotate (i + 1) = ends :: others := by
    cases hr : members.rotate (i + 1) with
    | nil => simp [hr] at head
    | cons first others => exact ⟨others, by rw [hr] at head; cases head; rfl⟩
  have refused := not_linkable_of_sources hs hs'
  rw [around, hothers, List.flatten_cons, List.find?_append]
  cases List.perm_pair.mp hends with
  | inl h => simp [h, refused, hk]
  | inr h => simp [h, hk]

theorem threadCarrier_pair {t : Table α} {members : List (List ConnectionId)} {i : Nat}
    {ends : List ConnectionId} {s k next : ConnectionId} (hends : ends.Perm [s, k])
    (hs : t.isSource s = true) (hk : t.isSource k = false)
    (hfind : (ringFrom members i).find? (t.linkable s) = some next) :
    threadCarrier members t (ends, i) = t.link s next := by
  have first : t.linkFirst s (ringFrom members i) = t.link s next := by
    rw [linkFirst, hfind]
  have after : (t.link s next).isSource k = false := by
    rw [isSource_eq_of_freed_eq (freed_link t s next), hk]
  cases List.perm_pair.mp hends with
  | inl h => simp [threadCarrier, h, hs, first, after]
  | inr h => simp [threadCarrier, h, hs, hk, first]

/-- Carriers that link one pair each link all pairs in turn, as no link uses up the ends of
another. -/
theorem foldl_threadCarrier {members : List (List ConnectionId)} {t : Table α}
    {carriers : List (List ConnectionId × Nat)} {pairs : List (ConnectionId × ConnectionId)}
    (turn : List.Forall₂ (fun carrier p => ∀ u : Table α, u.freed = t.freed →
      u.linkable p.1 p.2 = true → threadCarrier members u carrier = u.link p.1 p.2) carriers pairs)
    (apart : Apart pairs) {u : Table α} (hu : u.freed = t.freed)
    (free : ∀ p ∈ pairs, u.linkable p.1 p.2 = true) :
    carriers.foldl (threadCarrier members) u = u.linkAll pairs := by
  induction turn generalizing u with
  | nil => rfl
  | @cons carrier p carriers pairs hturn _ ih =>
      obtain ⟨hp, hrest⟩ := List.forall_mem_cons.mp free
      obtain ⟨-, apart, others⟩ := apart_cons apart
      rw [List.foldl_cons, hturn u hu hp, ih apart ((freed_link u _ _).trans hu)]
      · rfl
      · intro q hq
        obtain ⟨⟨hfst, hfst'⟩, hsnd, hsnd'⟩ := others q hq
        rw [linkable_congr (getElem?_link_of_ne hfst hfst') (getElem?_link_of_ne hsnd hsnd')]
        exact hrest q hq

end Table

/-! ### Carriers -/

/-- The modules that list an end of a chain. -/
def carrierEntries (g : Graph α) (chain : String) : List (String × Module) :=
  g.modules.entries.filter fun x => !(g.endsOn chain x.2).isEmpty

theorem chainEnds_eq_map (g : Graph α) (chain : String) :
    g.chainEnds chain = (g.carrierEntries chain).map fun x => g.endsOn chain x.2 := by
  rw [chainEnds_eq, NameMap.values, List.map_map, List.filter_map]
  rfl

theorem endsOn_ne_nil_iff {g : Graph α} {chain : String} {m : Module} :
    g.endsOn chain m ≠ [] ↔ chain ∈ g.chainNamesOf m := by
  rw [mem_chainNamesOf]
  constructor
  · intro h
    obtain ⟨c, hc⟩ := List.exists_mem_of_ne_nil _ h
    exact ⟨c, mem_endsOn.mp hc⟩
  · intro ⟨c, hc⟩
    exact List.ne_nil_of_mem (mem_endsOn.mpr hc)

theorem mem_carrierEntries {g : Graph α} {chain : String} {x : String × Module} :
    x ∈ g.carrierEntries chain ↔ x ∈ g.modules.entries ∧ chain ∈ g.chainNamesOf x.2 := by
  rw [carrierEntries, List.mem_filter, ← endsOn_ne_nil_iff]
  simp

theorem getD_chainCarriers (g : Graph α) (chain : String) :
    (g.chainCarriers.find? chain).getD [] = (g.carrierEntries chain).map Prod.fst := by
  have noted (name : String) (chains : List String) (hd : chains.Nodup)
      (carriers : NameMap (List String)) :
      ((chains.foldl (fun carriers c => carriers.append c name) carriers).find? chain).getD [] =
        (carriers.find? chain).getD [] ++ if chain ∈ chains then [name] else [] := by
    induction chains generalizing carriers with
    | nil => simp
    | cons c rest ih =>
        obtain ⟨hc, hrest⟩ := List.nodup_cons.mp hd
        rw [List.foldl_cons, ih hrest, NameMap.append, NameMap.find?_insert]
        by_cases h : chain = c
        · simp [h, hc]
        · simp [h]
  have fold (entries : List (String × Module)) (carriers : NameMap (List String)) :
      ((entries.foldl (fun carriers x => (NameSet.ofList (g.chainNamesOf x.2)).toList.foldl
        (fun carriers c => carriers.append c x.1) carriers) carriers).find? chain).getD [] =
        (carriers.find? chain).getD [] ++
          (entries.filter fun x => !(g.endsOn chain x.2).isEmpty).map Prod.fst := by
    induction entries generalizing carriers with
    | nil => simp
    | cons x rest ih =>
        have distinct : (NameSet.ofList (g.chainNamesOf x.2)).toList.Nodup := NameMap.keys_nodup _
        rw [List.foldl_cons, ih, noted x.1 _ distinct]
        simp only [NameSet.mem_toList_ofList, ← endsOn_ne_nil_iff]
        by_cases h : g.endsOn chain x.2 = []
        · simp [h]
        · simp [h]
  exact fold g.modules.entries .empty

theorem chainEndsOf_eq (g : Graph α) (m : Module) (chain : String) (source : Bool) :
    g.chainEndsOf m chain source =
      (g.endsOn chain m).filter fun c => (g.connection? c).any (·.kind.isSource == source) := by
  rw [chainEndsOf, endsOn, List.filter_filter]
  apply List.filter_congr
  intro c _
  cases g.connection? c with
  | none => rfl
  | some e => exact Bool.and_comm ..

theorem endsOn_perm (g : Graph α) (chain : String) (m : Module) :
    (g.endsOn chain m).Perm (g.chainEndsOf m chain true ++ g.chainEndsOf m chain false) := by
  have sinks : g.chainEndsOf m chain false =
      (g.endsOn chain m).filter fun c => !(g.connection? c).any (·.kind.isSource == true) := by
    rw [chainEndsOf_eq]
    apply List.filter_congr
    intro c hc
    obtain ⟨-, e, he, -⟩ := mem_endsOn.mp hc
    simp [he]
  rw [chainEndsOf_eq, sinks]
  exact (List.filter_append_perm _ _).symm

/-! ### Rings -/

/-- The only source end that one module lists of a chain and the only sink end that another one
lists of it are partners of each other. -/
def Feeds (g : Graph α) (chain A B : String) : Prop :=
  ∃ mA mB s k, g.module? A = some mA ∧ g.module? B = some mB ∧
    g.chainEndsOf mA chain true = [s] ∧ g.chainEndsOf mB chain false = [k] ∧
      g.partner? s = some k ∧ g.partner? k = some s

/-- The only source end and the only sink end of each carrier. -/
def Rungs (g : Graph α) (chain : String) (rungs : List (ConnectionId × ConnectionId)) : Prop :=
  List.Forall₂ (fun x r => g.chainEndsOf x.2 chain true = [r.1] ∧
    g.chainEndsOf x.2 chain false = [r.2]) (g.carrierEntries chain) rungs

theorem CarriedOnce.rungs {g : Graph α} {chain : String} (h : g.CarriedOnce chain) :
    ∃ rungs, g.Rungs chain rungs := by
  have each (entries : List (String × Module)) (hsub : entries ⊆ g.carrierEntries chain) :
      ∃ rungs, List.Forall₂ (fun (x : String × Module) (r : ConnectionId × ConnectionId) =>
        g.chainEndsOf x.2 chain true = [r.1] ∧ g.chainEndsOf x.2 chain false = [r.2])
        entries rungs := by
    induction entries with
    | nil => exact ⟨[], .nil⟩
    | cons x rest ih =>
        obtain ⟨hx, hrest⟩ := List.cons_subset.mp hsub
        obtain ⟨rungs, hrungs⟩ := ih hrest
        obtain ⟨hx, hchain⟩ := mem_carrierEntries.mp hx
        obtain ⟨hsource, hsink⟩ := h (NameMap.find?_eq_some.mpr hx) hchain
        obtain ⟨s, hs⟩ := List.length_eq_one_iff.mp hsource
        obtain ⟨k, hk⟩ := List.length_eq_one_iff.mp hsink
        exact ⟨(s, k) :: rungs, .cons ⟨hs, hk⟩ hrungs⟩
  exact each _ (List.Subset.refl _)

/-- The pairs that close the ring: each source with the next sink. -/
def ringLinks (rungs : List (ConnectionId × ConnectionId)) : List (ConnectionId × ConnectionId) :=
  (rungs.map Prod.fst).zip ((rungs.map Prod.snd).rotate 1)

/-- The rungs hold the sides of the chain in the order of the carriers. -/
theorem Rungs.side {g : Graph α} {chain : String} {rungs : List (ConnectionId × ConnectionId)}
    (h : g.Rungs chain rungs) :
    rungs.map Prod.fst = g.chainSide chain true ∧ rungs.map Prod.snd = g.chainSide chain false := by
  have carried (source : Bool) : (g.carrierEntries chain).flatMap (g.chainEndsOf ·.2 chain source) =
      g.chainSide chain source := by
    rw [chainSide, NameMap.values, List.flatMap_map, carrierEntries]
    generalize g.modules.entries = entries
    induction entries with
    | nil => rfl
    | cons x rest ih =>
        rw [List.filter_cons]
        split
        · rw [List.flatMap_cons, List.flatMap_cons, ih]
        · next hnone =>
          have none : g.chainEndsOf x.2 chain source = [] := by
            rw [chainEndsOf_eq]
            simp_all
          rw [List.flatMap_cons, none, List.nil_append, ih]
  rw [← carried, ← carried]
  unfold Rungs at h
  generalize g.carrierEntries chain = entries at h
  induction h with
  | nil => exact ⟨rfl, rfl⟩
  | cons hx _ ih => simp [ih, hx]

theorem getElem?_ringLinks {rungs : List (ConnectionId × ConnectionId)} {i : Nat}
    {r next : ConnectionId × ConnectionId} (hr : rungs[i]? = some r)
    (hnext : rungs[(i + 1) % rungs.length]? = some next) :
    (ringLinks rungs)[i]? = some (r.1, next.2) := by
  obtain ⟨hi, -⟩ := List.getElem?_eq_some_iff.mp hr
  rw [ringLinks, List.getElem?_zip_eq_some, List.getElem?_rotate (by simpa using hi),
    List.getElem?_map, List.getElem?_map, List.length_map, hr, hnext]
  exact ⟨rfl, rfl⟩

/-- Every carrier has its rung, and the next one too. -/
theorem Rungs.getElem? {g : Graph α} {chain : String} {rungs : List (ConnectionId × ConnectionId)}
    (h : g.Rungs chain rungs) {i : Nat} {x : String × Module}
    (hx : (g.carrierEntries chain)[i]? = some x) :
    ∃ r, rungs[i]? = some r ∧ g.chainEndsOf x.2 chain true = [r.1] ∧
      g.chainEndsOf x.2 chain false = [r.2] := by
  obtain ⟨hi, rfl⟩ := List.getElem?_eq_some_iff.mp hx
  have hi' := h.length_eq ▸ hi
  exact ⟨rungs[i], List.getElem?_eq_getElem hi', h.get hi hi'⟩

theorem Rungs.isSource {g : Graph α} {chain : String} {rungs : List (ConnectionId × ConnectionId)}
    (h : g.Rungs chain rungs) {r : ConnectionId × ConnectionId} (hr : r ∈ rungs) :
    Table.isSource g.connections r.1 = true ∧ Table.isSource g.connections r.2 = false := by
  have source {c : ConnectionId} {source : Bool} (hc : c ∈ g.chainSide chain source) :
      Table.isSource g.connections c = source := by
    obtain ⟨-, e, he, -, rfl⟩ := mem_chainSide.mp hc
    rw [Table.isSource, show g.connections[c.slot]? = some e from he]
    rfl
  exact ⟨source (h.side.1 ▸ List.mem_map_of_mem hr), source (h.side.2 ▸ List.mem_map_of_mem hr)⟩

theorem map_ringLinks (rungs : List (ConnectionId × ConnectionId)) :
    (ringLinks rungs).map Prod.fst = rungs.map Prod.fst ∧
      (ringLinks rungs).map Prod.snd = (rungs.map Prod.snd).rotate 1 := by
  constructor
  · exact List.map_fst_zip (by simp)
  · exact List.map_snd_zip (by simp)

theorem Rungs.apart {g : Graph α} (hg : g.Coherent) {chain : String}
    {rungs : List (ConnectionId × ConnectionId)} (h : g.Rungs chain rungs) :
    Table.Apart (ringLinks rungs) := by
  unfold Table.Apart
  rw [(map_ringLinks rungs).1, (map_ringLinks rungs).2, List.nodup_append', List.nodup_rotate,
    h.side.1, h.side.2]
  refine ⟨hg.chainSide_nodup chain true, hg.chainSide_nodup chain false, ?_⟩
  intro c hs hk
  rw [List.mem_rotate] at hk
  obtain ⟨-, e, he, -, hsource⟩ := mem_chainSide.mp hs
  obtain ⟨-, f, hf, -, hsink⟩ := mem_chainSide.mp hk
  cases he.symm.trans hf
  exact Bool.noConfusion (hsource.symm.trans hsink)

/-- The table with all ends of a chain free. -/
def dissolved (g : Graph α) (chain : String) : Table α :=
  (g.chainEnds chain).flatten.foldl Table.unlink g.connections

theorem getElem?_dissolved {g : Graph α} (hg : g.Coherent) {chain : String} {source : Bool}
    {c : ConnectionId} (hc : c ∈ g.chainSide chain source) :
    c ∈ (g.chainEnds chain).flatten ∧ ∃ e, (g.dissolved chain)[c.slot]? = some e ∧
    e.matched = false ∧
      e.name = chain ∧ e.kind.isChain = true ∧ e.kind.isSource = source := by
  obtain ⟨⟨A, hA⟩, e, he, hn, hsource⟩ := mem_chainSide.mp hc
  have hm : c ∈ (g.chainEnds chain).flatten := mem_flatten_chainEnds.mpr ⟨⟨A, hA⟩, e, he, hn⟩
  refine ⟨hm, e.unmatch, ?_, rfl, hn, (hg.listed_on_owner hA he).2.1, hsource⟩
  rw [dissolved, Table.getElem?_unlinkAll, if_pos hm, show g.connections[c.slot]? = some e from he]
  rfl

/-- A source and a sink of one chain can be linked once it is dissolved. -/
theorem linkable_dissolved {g : Graph α} (hg : g.Coherent) {chain : String} {s k : ConnectionId}
    (hs : s ∈ g.chainSide chain true) (hk : k ∈ g.chainSide chain false) :
    (g.dissolved chain).linkable s k = true := by
  obtain ⟨-, e, he, hfree, hn, hchain, hsource⟩ := getElem?_dissolved hg hs
  obtain ⟨-, f, hf, hfree', hn', hchain', hsink⟩ := getElem?_dissolved hg hk
  refine Table.linkable_iff.mpr ⟨e, f, he, hf, hn.trans hn'.symm, hfree, hfree', ?_⟩
  refine Connection.Kind.complements_iff.mpr ⟨hchain.trans hchain'.symm, ?_⟩
  rw [hsource, hsink]
  decide

/-- The turn of a carrier links its source with the sink of the next one. -/
theorem Rungs.turn {g : Graph α} {chain : String} {rungs : List (ConnectionId × ConnectionId)}
    (h : g.Rungs chain rungs) :
    List.Forall₂ (fun carrier p => ∀ u : Table α, u.freed = (g.dissolved chain).freed →
      u.linkable p.1 p.2 = true →
        Table.threadCarrier (g.chainEnds chain) u carrier = u.link p.1 p.2)
      (g.chainEnds chain).zipIdx (ringLinks rungs) := by
  have length : (g.carrierEntries chain).length = rungs.length := h.length_eq
  refine List.forall₂_iff_get.mpr ⟨by simp [chainEnds_eq_map, ringLinks, length], ?_⟩
  intro i hi hi'
  have hi : i < (g.carrierEntries chain).length := by simpa [chainEnds_eq_map] using hi
  have hnext : (i + 1) % rungs.length < (g.carrierEntries chain).length :=
    length ▸ Nat.mod_lt _ (by omega)
  obtain ⟨r, hr, hsource, hsink⟩ := h.getElem? (List.getElem?_eq_getElem hi)
  obtain ⟨r', hr', hsource', hsink'⟩ := h.getElem? (List.getElem?_eq_getElem hnext)
  have ends {x : String × Module} {r : ConnectionId × ConnectionId}
      (hs : g.chainEndsOf x.2 chain true = [r.1]) (hk : g.chainEndsOf x.2 chain false = [r.2]) :
      (g.endsOn chain x.2).Perm [r.1, r.2] := by
    simpa [hs, hk] using g.endsOn_perm chain x.2
  have pair : (ringLinks rungs).get ⟨i, hi'⟩ = (r.1, r'.2) :=
    Option.some.inj ((List.getElem?_eq_getElem hi').symm.trans (getElem?_ringLinks hr hr'))
  rw [pair]
  intro u hu hl
  have same (c : ConnectionId) : u.isSource c = Table.isSource g.connections c :=
    Table.isSource_eq_of_freed_eq (hu.trans (Table.freed_unlinkAll _ _)) c
  obtain ⟨hs, hk⟩ := h.isSource (List.mem_of_getElem? hr)
  obtain ⟨hs', -⟩ := h.isSource (List.mem_of_getElem? hr')
  simp only [List.get_eq_getElem, List.getElem_zipIdx, chainEnds_eq_map, List.getElem_map,
    Nat.zero_add]
  refine Table.threadCarrier_pair (ends hsource hsink) ((same _).trans hs) ((same _).trans hk) ?_
  refine Table.find?_ringFrom (by simpa using hi) ?_ (ends hsource' hsink') ((same _).trans hs)
    ((same _).trans hs') hl
  rw [List.length_map, length, List.getElem?_map, List.getElem?_eq_getElem hnext]
  rfl

/-- A chain that every carrier has one source and one sink of is threaded into a ring. -/
theorem Rungs.threadChain {g : Graph α} (hg : g.Coherent) {chain : String}
    {rungs : List (ConnectionId × ConnectionId)} (h : g.Rungs chain rungs) :
    Table.threadChain g.connections (g.chainEnds chain) =
      (g.dissolved chain).linkAll (ringLinks rungs) := by
  rw [Table.threadChain_eq]
  refine Table.foldl_threadCarrier h.turn (h.apart hg) rfl ?_
  intro p hp
  refine linkable_dissolved hg (h.side.1 ▸ ?_) (h.side.2 ▸ ?_)
  · exact (map_ringLinks rungs).1 ▸ List.mem_map_of_mem hp
  · rw [← List.mem_rotate (n := 1), ← (map_ringLinks rungs).2]
    exact List.mem_map_of_mem hp

theorem Rungs.partners {g : Graph α} (hg : g.Coherent) (ht : g.Threaded) {chain : String}
    {rungs : List (ConnectionId × ConnectionId)} (h : g.Rungs chain rungs) {s k : ConnectionId}
    (hsk : (s, k) ∈ ringLinks rungs) : g.partner? s = some k ∧ g.partner? k = some s := by
  have hs : s ∈ g.chainSide chain true := by
    rw [← h.side.1, ← (map_ringLinks rungs).1]
    exact List.mem_map_of_mem hsk
  have hk : k ∈ g.chainSide chain false := by
    rw [← h.side.2, ← List.mem_rotate (n := 1), ← (map_ringLinks rungs).2]
    exact List.mem_map_of_mem hsk
  obtain ⟨hsm, e, he, -⟩ := getElem?_dissolved hg hs
  obtain ⟨hkm, f, hf, -⟩ := getElem?_dissolved hg hk
  obtain ⟨linkS, linkK⟩ := Table.getElem?_linkAll (t := g.dissolved chain) (h.apart hg) hsk
  rw [← h.threadChain hg] at linkS linkK
  rw [ht hsm, he] at linkS
  rw [ht hkm, hf] at linkK
  exact ⟨partner?_eq_some.mpr ⟨_, linkS, rfl⟩, partner?_eq_some.mpr ⟨_, linkK, rfl⟩⟩

theorem chainEndsOf_lists {g : Graph α} {name chain : String} {m : Module} {source : Bool}
    {c : ConnectionId} (hm : (name, m) ∈ g.modules.entries)
    (hc : g.chainEndsOf m chain source = [c]) : g.Lists true name c :=
  ⟨m, hm, (List.mem_filter.mp (hc ▸ List.mem_singleton_self c)).1⟩

/-- Each carrier feeds the next one and no other. -/
theorem Rungs.feeds_iff {g : Graph α} (hg : g.Coherent) (ht : g.Threaded) {chain : String}
    {rungs : List (ConnectionId × ConnectionId)} (h : g.Rungs chain rungs) (A B : String) :
    g.Feeds chain A B ↔ (A, B) ∈ Thread.cycle ((g.carrierEntries chain).map Prod.fst) := by
  have length : (g.carrierEntries chain).length = rungs.length := h.length_eq
  have next {i : Nat} {x : String × Module} (hx : (g.carrierEntries chain)[i]? = some x) :
      ∃ y r r', (g.carrierEntries chain)[(i + 1) % (g.carrierEntries chain).length]? = some y ∧
        g.chainEndsOf x.2 chain true = [r] ∧ g.chainEndsOf y.2 chain false = [r'] ∧
          g.partner? r = some r' ∧ g.partner? r' = some r := by
    obtain ⟨hi, -⟩ := List.getElem?_eq_some_iff.mp hx
    have hy := List.getElem?_eq_getElem (Nat.mod_lt (i + 1) (Nat.zero_lt_of_lt hi))
    obtain ⟨r, hr, hsource, -⟩ := h.getElem? hx
    obtain ⟨r', hr', -, hsink⟩ := h.getElem? hy
    have linked := getElem?_ringLinks hr (length ▸ hr')
    exact ⟨_, _, _, hy, hsource, hsink, h.partners hg ht (List.mem_of_getElem? linked)⟩
  rw [Thread.cycle_eq_zip, List.mem_iff_getElem?]
  constructor
  · rintro ⟨mA, mB, s, k, hA, hB, hs, hk, hsk, -⟩
    have entryA := NameMap.find?_eq_some.mp hA
    have carrier : (A, mA) ∈ g.carrierEntries chain := by
      have hc : s ∈ g.chainEndsOf mA chain true := hs ▸ List.mem_singleton_self s
      rw [chainEndsOf_eq] at hc
      refine mem_carrierEntries.mpr ⟨entryA, endsOn_ne_nil_iff.mp ?_⟩
      exact List.ne_nil_of_mem (List.mem_of_mem_filter hc)
    obtain ⟨i, hi⟩ := List.mem_iff_getElem?.mp carrier
    obtain ⟨⟨B', mB'⟩, r, r', hy, hsource, hsink, hpartner, -⟩ := next hi
    have first : s = r := List.singleton_inj.mp (hs.symm.trans hsource)
    have last : k = r' := Option.some.inj (hsk.symm.trans (first ▸ hpartner))
    have entryB := (mem_carrierEntries.mp (List.mem_of_getElem? hy)).1
    have same : B = B' := (hg.owner_unique
      (chainEndsOf_lists (NameMap.find?_eq_some.mp hB) (last ▸ hk))
      (chainEndsOf_lists entryB hsink)).1
    refine ⟨i, List.getElem?_zip_eq_some.mpr ⟨by rw [List.getElem?_map, hi]; rfl, ?_⟩⟩
    rw [List.getElem?_rotate (by simpa using (List.getElem?_eq_some_iff.mp hi).1), List.length_map,
      List.getElem?_map, hy, same]
    rfl
  · intro ⟨i, hi⟩
    obtain ⟨hA, hB⟩ := List.getElem?_zip_eq_some.mp hi
    rw [List.getElem?_map, Option.map_eq_some_iff] at hA
    obtain ⟨x, hx, rfl⟩ := hA
    obtain ⟨y, r, r', hy, hsource, hsink, hpartner⟩ := next hx
    rw [List.getElem?_rotate (by simpa using (List.getElem?_eq_some_iff.mp hx).1), List.length_map,
      List.getElem?_map, hy] at hB
    cases hB
    have entry {i : Nat} {x : String × Module} (hx : (g.carrierEntries chain)[i]? = some x) :
        g.module? x.1 = some x.2 :=
      NameMap.find?_eq_some.mpr (mem_carrierEntries.mp (List.mem_of_getElem? hx)).1
    exact ⟨x.2, y.2, r, r', entry hx, entry hy, hsource, hsink, hpartner⟩

/-- The graphs that assembly and merging build, in whatever match state the ends come. -/
inductive Merged : Graph α → Prop
  | assembled {ends : List (Connection α)} {g : Graph α} (h : ofConnections ends = .ok g) : Merged g
  | merged {g incoming g' : Graph α} (hg : Merged g) (hi : Merged incoming)
      (h : g.merge incoming = .ok g') : Merged g'

theorem Merged.coherent_threaded {g : Graph α} (h : g.Merged) : g.Coherent ∧ g.Threaded := by
  induction h with
  | assembled h => exact ⟨coherent_ofConnections h, threaded_ofConnections h⟩
  | merged _ _ h ihg ihi => exact ⟨ihg.1.merge ihi.1 h, ihg.2.merge ihg.1 ihi.1 h⟩

/-- A chain that every carrier lists one source and one sink of is one ring through its carriers in
name order. -/
theorem Merged.chain_rings {g : Graph α} (h : g.Merged) {chain : String} {carriers : List String}
    (hc : g.chainCarriers.find? chain = some carriers) (once : g.CarriedOnce chain) :
    carriers.Pairwise (· < ·) ∧ (∀ A, A ∈ carriers ↔ g.carries chain A = true) ∧
      ∀ A B, g.Feeds chain A B ↔ (A, B) ∈ Thread.cycle carriers := by
  obtain ⟨coherent, threaded⟩ := h.coherent_threaded
  obtain ⟨rungs, hrungs⟩ := once.rungs
  have entries : carriers = (g.carrierEntries chain).map Prod.fst := by
    rw [← getD_chainCarriers, hc, Option.getD_some]
  rw [entries]
  refine ⟨?_, fun A => ?_, hrungs.feeds_iff coherent threaded⟩
  · rw [List.pairwise_map]
    exact g.modules.ascending.filter _
  · simp only [carries, module?, List.mem_map, mem_carrierEntries, ← NameMap.find?_eq_some,
      Option.any_eq_true, List.contains_iff_mem, Prod.exists, exists_and_right, exists_eq_right]

theorem pipeline_merged : Merged pipeline :=
  .merged (.assembled (matchFresh_ok (by cbv) : ofConnections headEnds = _))
    (.assembled (matchFresh_ok (by cbv) : ofConnections tailEnds = _)) merge_pipeline

theorem pipeline_carriedOnce : pipeline.CarriedOnce "s" := by
  have all :
      (pipeline.modules.entries.all fun x => (pipeline.chainEndsOf x.2 "s" true).length == 1 &&
      (pipeline.chainEndsOf x.2 "s" false).length == 1) = true := by cbv
  intro name m hm _
  have hmem := List.all_eq_true.mp all (name, m) (NameMap.find?_eq_some.mp hm)
  simp only [Bool.and_eq_true, beq_iff_eq] at hmem
  exact hmem

/-- The chain of the pipeline comes back from the module that was merged in last to the first
one. -/
theorem pipeline_chain_rings : Merged pipeline ∧
    pipeline.chainCarriers.find? "s" = some ["a", "b", "c"] ∧ pipeline.CarriedOnce "s" ∧
      pipeline.Feeds "s" "c" "a" := by
  have carriers : pipeline.chainCarriers.find? "s" = some ["a", "b", "c"] := by cbv
  have rings := pipeline_merged.chain_rings carriers pipeline_carriedOnce
  exact ⟨pipeline_merged, carriers, pipeline_carriedOnce, (rings.2.2 "c" "a").mpr (by decide)⟩

end Graph
end HardwareLinker
