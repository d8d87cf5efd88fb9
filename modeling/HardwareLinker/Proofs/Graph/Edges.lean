import HardwareLinker.Graph.Edges
import HardwareLinker.Proofs.Graph.Reachable

/-!
The edges of a graph as sums over its links. One module has an edge to another just where some of
its ends drive the other, and the weight is what the activities of those ends add up to. Edges see
only listed matched ends and the owners of their partners, so a new module without ends and the
trimming of idle ends leave them as they are.
-/

namespace HardwareLinker.Graph

variable {α : Type}

/-- The matched source ends of a module whose partners belong to the named one, in interface
order. -/
def driversIn (g : Graph α) (m : Module) (b : String) : List (Connection α) :=
  (m.ends.filterMap g.connection?).filter fun e =>
    e.matched && e.kind.isSource && g.partnerOwner? e == some b

def drivers (g : Graph α) (a b : String) : List (Connection α) :=
  match g.module? a with
  | some m => g.driversIn m b
  | none => []

/-! ### What leaves a module -/

theorem partnerOwner?_eq_some {g : Graph α} {e : Connection α} {b : String} :
    g.partnerOwner? e = some b ↔ b ∈ g.modules.keys ∧
      ∃ p f, e.partner = some p ∧ g.connection? p = some f ∧ f.owner = b := by
  simp only [partnerOwner?, Option.bind_eq_bind, Option.bind_eq_some_iff,
    Option.ite_none_right_eq_some, NameMap.contains_iff, Option.some.injEq]
  constructor
  · intro ⟨p, hp, f, hf, hk, ho⟩
    exact ⟨ho ▸ hk, p, f, hp, hf, ho⟩
  · intro ⟨hk, p, f, hp, hf, ho⟩
    exact ⟨p, hp, f, hf, ho ▸ hk, ho⟩

theorem mem_drivers {g : Graph α} {a b : String} {e : Connection α} :
    e ∈ g.drivers a b ↔ b ∈ g.modules.keys ∧ ∃ c p f, (∃ chain, g.Lists chain a c) ∧
      g.connection? c = some e ∧ e.matched = true ∧ e.kind.isSource = true ∧ e.partner = some p ∧
      g.connection? p = some f ∧ f.owner = b := by
  have listed : (∃ c m, g.module? a = some m ∧ c ∈ m.ends ∧ g.connection? c = some e) ↔
      ∃ c, (∃ chain, g.Lists chain a c) ∧ g.connection? c = some e := by
    simp only [module?, NameMap.find?_eq_some, Module.mem_ends, Lists]
    constructor
    · rintro ⟨c, m, hm, ⟨chain, hc⟩, he⟩
      exact ⟨c, ⟨chain, m, hm, hc⟩, he⟩
    · rintro ⟨c, ⟨chain, m, hm, hc⟩, he⟩
      exact ⟨c, m, hm, ⟨chain, hc⟩, he⟩
  have member : e ∈ g.drivers a b ↔
      (∃ c m, g.module? a = some m ∧ c ∈ m.ends ∧ g.connection? c = some e) ∧
        (e.matched = true ∧ e.kind.isSource = true) ∧ g.partnerOwner? e = some b := by
    unfold drivers driversIn
    cases g.module? a <;> simp [and_assoc]
  rw [member, listed, partnerOwner?_eq_some]
  constructor
  · rintro ⟨⟨c, hc, he⟩, ⟨hm, hs⟩, hb, p, f, hp, hf, ho⟩
    exact ⟨hb, c, p, f, hc, he, hm, hs, hp, hf, ho⟩
  · rintro ⟨hb, c, p, f, hc, he, hm, hs, hp, hf, ho⟩
    exact ⟨⟨c, hc, he⟩, ⟨hm, hs⟩, hb, p, f, hp, hf, ho⟩

theorem target?_eq_some {g : Graph α} {a b : String} {e : Connection α} :
    g.target? a e = some b ↔
      (e.matched && e.kind.isSource && g.partnerOwner? e == some b) = true ∧ b ≠ a := by
  unfold target?
  split
  · next h => simp [h]
  · next h => simp [Bool.eq_false_iff.mpr h]

theorem outflows_to {g : Graph α} {a b : String} (hab : b ≠ a) (m : Module) :
    ((g.outflows a m).filter fun f => f.1 == b).map Prod.snd =
      (g.driversIn m b).map (·.activity) := by
  unfold outflows driversIn
  induction m.ends with
  | nil => rfl
  | cons c rest ih =>
      cases he : g.connection? c with
      | none => simpa [he] using ih
      | some e =>
          have head : g.target? a e = some b ↔
              (e.matched && e.kind.isSource && g.partnerOwner? e == some b) = true :=
            target?_eq_some.trans (and_iff_left hab)
          simp only [List.filterMap_cons, he, Option.bind_eq_bind, Option.bind_some,
            List.filter_cons, ← head]
          cases ht : g.target? a e with
          | none => simpa using ih
          | some t =>
              by_cases hb : t = b
              · simpa [hb] using ih
              · simpa [hb] using ih

theorem outflows_self (g : Graph α) (a : String) (m : Module) :
    (g.outflows a m).filter (fun f => f.1 == a) = [] := by
  simp only [List.filter_eq_nil_iff, outflows, List.mem_filterMap]
  intro f ⟨c, _, h⟩
  simp only [Option.bind_eq_bind, Option.bind_eq_some_iff] at h
  obtain ⟨e, -, t, ht, h⟩ := h
  cases h
  simpa using (target?_eq_some.mp ht).2

/-- What leaves a module depends on the table and on the owners of partners. -/
theorem outflows_congr {g g' : Graph α} (hc : g'.connections = g.connections)
    (ho : ∀ e, g'.partnerOwner? e = g.partnerOwner? e) (a : String) (m : Module) :
    g'.outflows a m = g.outflows a m := by
  unfold outflows connection? target?
  simp only [hc, ho]

/-- Every end of the table belongs to a module of the graph. -/
def Owned (g : Graph α) : Prop :=
  ∀ ⦃c : ConnectionId⦄ ⦃e : Connection α⦄, g.connection? c = some e → e.owner ∈ g.modules.keys

theorem outflows_attach_nil {g : Graph α} (h : g.Owned) (name : String) (n : Module) (a : String)
    (m : Module) : (g.attach name n []).outflows a m = g.outflows a m := by
  refine outflows_congr (connections_attach_nil g name n) (fun e => ?_) a m
  apply Option.ext
  intro b
  simp only [partnerOwner?_eq_some, connection?, connections_attach_nil]
  constructor
  · rintro ⟨_, p, f, hp, hf, ho⟩
    exact ⟨ho ▸ h hf, p, f, hp, hf, ho⟩
  · rintro ⟨hb, rest⟩
    exact ⟨NameMap.mem_keys_insert.mpr (.inr hb), rest⟩

theorem outflows_trim (g : Graph α) (a : String) (m : Module) :
    g.trim.outflows a m = g.outflows a m := by
  have hc : g.trim.connections = g.connections := rfl
  refine outflows_congr hc (fun e => ?_) a m
  unfold partnerOwner? connection?
  simp only [trim, NameMap.contains, NameMap.mapValues, List.any_map]
  rfl

/-- An idle end feeds nobody. -/
theorem outflows_filter_idle (g : Graph α) (a : String) (m : Module) :
    g.outflows a { m with
      channels := m.channels.filter (!g.isIdle ·), chains := m.chains.filter (!g.isIdle ·) } =
    g.outflows a m := by
  simp only [outflows, Module.ends, ← List.filter_append, List.filterMap_filter]
  congr 1
  funext c
  cases hc : g.connection? c with
  | none => simp
  | some e =>
      cases hi : g.isIdle c with
      | false => simp
      | true =>
          simp only [isIdle, hc, Option.any_some, Bool.and_eq_true, Bool.not_eq_true'] at hi
          simp [target?, hi.2]

/-! ### Edges -/

variable [Scalar α]

/-- Numbers added up from the left; nothing where there are none. -/
def sum? : List α → Option α
  | [] => none
  | x :: rest => some (rest.foldl (· + ·) x)

theorem addWeights_eq (flows : List (String × α)) : addWeights flows =
    flows.foldl (fun weights f => weights.insert f.1 ((weights.find? f.1).elim f.2 (· + f.2)))
      .empty := by
  unfold addWeights
  congr 1
  funext weights f
  dsimp only
  cases weights.find? f.1 <;> rfl

theorem find?_addWeights (flows : List (String × α)) (b : String) :
    (addWeights flows).find? b = sum? ((flows.filter fun f => f.1 == b).map Prod.snd) := by
  -- From a sum that is there, what follows is added to it.
  have running (flows : List (String × α)) (m : NameMap α) :
      (flows.foldl (fun weights f =>
        weights.insert f.1 ((weights.find? f.1).elim f.2 (· + f.2))) m).find? b =
        (m.find? b).elim (sum? ((flows.filter fun f => f.1 == b).map Prod.snd)) fun s =>
          some (((flows.filter fun f => f.1 == b).map Prod.snd).foldl (· + ·) s) := by
    induction flows generalizing m with
    | nil => cases h : m.find? b <;> simp [sum?, h]
    | cons f rest ih =>
        rw [List.foldl_cons, ih, NameMap.find?_insert]
        by_cases hf : b = f.1
        · subst hf
          cases m.find? f.1 <;> simp [sum?]
        · have hf' : ¬ f.1 = b := fun h => hf h.symm
          simp [hf, hf']
  rw [addWeights_eq]
  exact running flows .empty

/-- One edge for each pair of modules of which one drives the other, with the weights added up. -/
theorem mem_edges {g : Graph α} {a b : String} {w : α} :
    (a, b, w) ∈ g.edges ↔ a ≠ b ∧ sum? ((g.drivers a b).map (·.activity)) = some w := by
  have entry : (a, b, w) ∈ g.edges ↔
      ∃ m, (a, m) ∈ g.modules.entries ∧ (b, w) ∈ (g.edgesFrom a m).entries := by
    simp [edges, List.mem_flatMap]
  simp only [entry, ← NameMap.find?_eq_some, edgesFrom, find?_addWeights]
  by_cases hab : a = b
  · subst hab
    simp [outflows_self, sum?]
  · have hba : b ≠ a := fun h => hab h.symm
    simp only [outflows_to hba, drivers, module?]
    cases g.modules.find? a <;> simp [sum?, hab]

theorem edges_unique (g : Graph α) :
    g.edges.Pairwise fun e f => ¬ (e.1 = f.1 ∧ e.2.1 = f.2.1) := by
  have apart {β : Type} {x y : String × β} (h : x.1 < y.1) : x.1 ≠ y.1 :=
    fun e => String.lt_irrefl _ (e ▸ h)
  unfold edges
  rw [List.pairwise_flatMap]
  constructor
  · intro x _
    rw [List.pairwise_map]
    refine (g.edgesFrom x.1 x.2).ascending.imp ?_
    intro e f h same
    exact apart h same.2
  · refine g.modules.ascending.imp ?_
    intro x y h e he f hf same
    simp only [List.mem_map] at he hf
    obtain ⟨_, -, rfl⟩ := he
    obtain ⟨_, -, rfl⟩ := hf
    exact apart h same.1

theorem edges_attach_nil {g : Graph α} (h : g.Owned) {name : String}
    (hnew : name ∉ g.modules.keys) (m : Module) : (g.attach name m []).edges = g.edges := by
  unfold edges edgesFrom
  simp only [outflows_attach_nil h]
  refine NameMap.flatMap_insert_of_nil hnew ?_
  simp [outflows, listFamily, Module.ends, addWeights, NameMap.empty]

theorem edges_trim (g : Graph α) : g.trim.edges = g.edges := by
  unfold edges edgesFrom
  simp only [outflows_trim]
  simp only [trim, NameMap.mapValues, List.flatMap_map, outflows_filter_idle]

end HardwareLinker.Graph
