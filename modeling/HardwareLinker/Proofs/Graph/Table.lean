import Mathlib.Data.List.Nodup
import HardwareLinker.Graph.Matching
import HardwareLinker.Proofs.Pairs

/-!
What matching does to the table of ends. Links are mutual and join complementary ends of one name;
linking two free ends and threading a chain keep that, and nothing but the match state changes.
Which ends may be linked at all is left to the caller, as a relation that every link must satisfy.
-/

namespace HardwareLinker

theorem ConnectionId.slot_inj {a b : ConnectionId} : a.slot = b.slot ↔ a = b := by
  cases a; cases b; simp

theorem Connection.Kind.complements_iff {a b : Kind} :
    a.complements b = true ↔ a.isChain = b.isChain ∧ a.isSource ≠ b.isSource := by
  simp [Kind.complements]

theorem Connection.Kind.complements_irrefl (a : Kind) : a.complements a = false := by
  simp [Kind.complements]

theorem Connection.name_eq_of_unmatch {α : Type} {a b : Connection α}
    (h : a.unmatch = b.unmatch) : a.name = b.name := by
  simpa only [unmatch] using congrArg Connection.name h

theorem Connection.type_eq_of_unmatch {α : Type} {a b : Connection α}
    (h : a.unmatch = b.unmatch) : a.type = b.type := by
  simpa only [unmatch] using congrArg Connection.type h

theorem Connection.owner_eq_of_unmatch {α : Type} {a b : Connection α}
    (h : a.unmatch = b.unmatch) : a.owner = b.owner := by
  simpa only [unmatch] using congrArg Connection.owner h

theorem Connection.kind_eq_of_unmatch {α : Type} {a b : Connection α}
    (h : a.unmatch = b.unmatch) : a.kind = b.kind := by
  simpa only [unmatch] using congrArg Connection.kind h

namespace Graph.Table

variable {α : Type}

/-- The table with every end free: all that matching leaves alone. -/
def freed (t : Table α) : Table α := Array.map (·.unmatch) t

@[simp] theorem unmatch_linkTo (c : Connection α) (p : ConnectionId) :
    (c.linkTo p).unmatch = c.unmatch := rfl

@[simp] theorem unmatch_unmatch (c : Connection α) : c.unmatch.unmatch = c.unmatch := rfl

theorem freed_getElem? (t : Table α) (i : Nat) :
    t.freed[i]? = t[i]?.map Connection.unmatch := by
  simp [freed]

/-- Two tables with equal ends show equal ends up to their match state. -/
theorem get_of_freed_eq {t t' : Table α} (h : t'.freed = t.freed) {i : Nat} {e' : Connection α}
    (he : t'[i]? = some e') : ∃ e, t[i]? = some e ∧ e.unmatch = e'.unmatch := by
  have hi : t.freed[i]? = some e'.unmatch := by rw [← h, freed_getElem?, he]; rfl
  rwa [freed_getElem?, Option.map_eq_some_iff] at hi

/-! ### Single steps -/

theorem getElem?_link (t : Table α) (a b : ConnectionId) (i : Nat) :
    (t.link a b)[i]? =
      if b.slot = i then (if a.slot = i then t[i]?.map (·.linkTo b) else t[i]?).map (·.linkTo a)
      else if a.slot = i then t[i]?.map (·.linkTo b) else t[i]? := by
  simp [link, Array.getElem?_modify]

theorem getElem?_link_of_ne {t : Table α} {a b c : ConnectionId} (ha : c ≠ a) (hb : c ≠ b) :
    (t.link a b)[c.slot]? = t[c.slot]? := by
  have ha' : a.slot ≠ c.slot := fun e => ha (ConnectionId.slot_inj.mp e.symm)
  have hb' : b.slot ≠ c.slot := fun e => hb (ConnectionId.slot_inj.mp e.symm)
  rw [getElem?_link, if_neg hb', if_neg ha']

theorem getElem?_unlink (t : Table α) (c : ConnectionId) (i : Nat) :
    (t.unlink c)[i]? = if c.slot = i then t[i]?.map (·.unmatch) else t[i]? := by
  simp [unlink, Array.getElem?_modify]

theorem freed_link (t : Table α) (a b : ConnectionId) : (t.link a b).freed = t.freed := by
  apply Array.ext_getElem?
  intro i
  rw [freed_getElem?, freed_getElem?, getElem?_link]
  split <;> split <;> simp [Function.comp_def]

theorem freed_unlink (t : Table α) (c : ConnectionId) : (t.unlink c).freed = t.freed := by
  apply Array.ext_getElem?
  intro i
  rw [freed_getElem?, freed_getElem?, getElem?_unlink]
  split <;> simp [Function.comp_def]

theorem freed_foldl {β : Type} {step : Table α → β → Table α}
    (h : ∀ t x, (step t x).freed = t.freed) (l : List β) (t : Table α) :
    freed (l.foldl step t) = t.freed := by
  induction l generalizing t with
  | nil => rfl
  | cons x rest ih => rw [List.foldl_cons, ih, h]

theorem linkable_iff {t : Table α} {a b : ConnectionId} :
    t.linkable a b = true ↔ ∃ x y, t[a.slot]? = some x ∧ t[b.slot]? = some y ∧ x.name = y.name ∧
      x.matched = false ∧ y.matched = false ∧ x.kind.complements y.kind = true := by
  unfold linkable
  constructor
  · intro h
    split at h
    · next x y hx hy =>
      simp only [Connection.linkable, Bool.and_eq_true, beq_iff_eq, Bool.not_eq_true'] at h
      exact ⟨x, y, hx, hy, h.1.1.1, h.1.1.2, h.1.2, h.2⟩
    · cases h
  · rintro ⟨x, y, hx, hy, hn, ha, hb, hk⟩
    simp [hx, hy, Connection.linkable, hn, ha, hb, hk]

theorem slot_ne_of_linkable {t : Table α} {a b : ConnectionId} (h : t.linkable a b = true) :
    a.slot ≠ b.slot := by
  obtain ⟨x, y, hx, hy, -, -, -, hk⟩ := linkable_iff.mp h
  intro e
  rw [e, hy] at hx
  cases hx
  simp [Connection.Kind.complements_irrefl] at hk

/-! ### Mutual links -/

/-- Ends are matched if and only if they have a partner, and partners name each other. -/
structure Linked (R : ConnectionId → ConnectionId → Prop) (t : Table α) : Prop where
  matched_iff : ∀ {c : ConnectionId} {e : Connection α}, t[c.slot]? = some e →
    (e.matched = true ↔ e.partner.isSome = true)
  partners : ∀ {c p : ConnectionId} {e : Connection α}, t[c.slot]? = some e → e.partner = some p →
    R c p ∧ ∃ f, t[p.slot]? = some f ∧ f.partner = some c ∧ e.name = f.name ∧
      e.kind.complements f.kind = true

theorem linked_of_free {R : ConnectionId → ConnectionId → Prop} {t : Table α}
    (h : ∀ (i : Nat) (e : Connection α), t[i]? = some e → e.matched = false ∧ e.partner = none) :
    t.Linked R where
  matched_iff he := by simp [(h _ _ he).1, (h _ _ he).2]
  partners he hp := by simp [(h _ _ he).2] at hp

/-- A free end is nobody's partner. -/
theorem Linked.partner_ne {R : ConnectionId → ConnectionId → Prop} {t : Table α} (h : t.Linked R)
    {a c : ConnectionId} {x e : Connection α} (hx : t[a.slot]? = some x) (hfree : x.matched = false)
    (he : t[c.slot]? = some e) : e.partner ≠ some a := by
  intro hp
  obtain ⟨-, f, hf, hpf, -⟩ := h.partners he hp
  rw [hx] at hf
  cases hf
  have := (h.matched_iff hx).mpr (by simp [hpf])
  simp [hfree] at this

theorem Linked.link {R : ConnectionId → ConnectionId → Prop} {t : Table α} (h : t.Linked R)
    {a b : ConnectionId} (hl : t.linkable a b = true) (hab : R a b) (hba : R b a) :
    (t.link a b).Linked R := by
  obtain ⟨x, y, hx, hy, hn, hxf, hyf, hk⟩ := linkable_iff.mp hl
  have hne := slot_ne_of_linkable hl
  have ga : (t.link a b)[a.slot]? = some (x.linkTo b) := by
    simp [getElem?_link, hne.symm, hx]
  have gb : (t.link a b)[b.slot]? = some (y.linkTo a) := by
    simp [getElem?_link, hne, hy]
  -- An end is one of the two that are linked, or its partner is neither of them.
  constructor
  · intro c e he
    by_cases hca : c = a
    · subst hca
      rw [ga] at he
      cases he
      simp [Connection.linkTo]
    · by_cases hcb : c = b
      · subst hcb
        rw [gb] at he
        cases he
        simp [Connection.linkTo]
      · exact h.matched_iff (getElem?_link_of_ne hca hcb ▸ he)
  · intro c p e he hp
    by_cases hca : c = a
    · subst hca
      rw [ga] at he
      cases he
      cases hp
      exact ⟨hab, _, gb, rfl, hn, hk⟩
    · by_cases hcb : c = b
      · subst hcb
        rw [gb] at he
        cases he
        cases hp
        refine ⟨hba, _, ga, rfl, hn.symm, ?_⟩
        rw [Connection.Kind.complements_comm]
        exact hk
      · rw [getElem?_link_of_ne hca hcb] at he
        have hpa : p ≠ a := fun e' => h.partner_ne hx hxf he (e' ▸ hp)
        have hpb : p ≠ b := fun e' => h.partner_ne hy hyf he (e' ▸ hp)
        rw [getElem?_link_of_ne hpa hpb]
        exact h.partners he hp

/-! ### Greedy passes -/

theorem freed_linkGreedily (t : Table α) (pairs : List (ConnectionId × ConnectionId)) :
    (t.linkGreedily pairs).freed = t.freed := by
  refine freed_foldl (fun t ⟨a, b⟩ => ?_) pairs t
  dsimp only
  split
  · exact freed_link t a b
  · rfl

theorem Linked.linkGreedily {R : ConnectionId → ConnectionId → Prop} {t : Table α}
    (h : t.Linked R) {pairs : List (ConnectionId × ConnectionId)}
    (hp : ∀ p ∈ pairs, R p.1 p.2 ∧ R p.2 p.1) : (t.linkGreedily pairs).Linked R := by
  induction pairs generalizing t with
  | nil => exact h
  | cons p rest ih =>
      obtain ⟨⟨hab, hba⟩, hr⟩ := List.forall_mem_cons.mp hp
      change ((if t.linkable p.1 p.2 then t.link p.1 p.2 else t).linkGreedily rest).Linked R
      apply ih _ hr
      split
      · next hl => exact h.link hl hab hba
      · exact h

theorem freed_linkFirst (t : Table α) (a : ConnectionId) (candidates : List ConnectionId) :
    (t.linkFirst a candidates).freed = t.freed := by
  unfold linkFirst
  split
  · exact freed_link t a _
  · rfl

theorem Linked.linkFirst {R : ConnectionId → ConnectionId → Prop} {t : Table α} (h : t.Linked R)
    {a : ConnectionId} {candidates : List ConnectionId}
    (hc : ∀ b ∈ candidates, R a b ∧ R b a) : (t.linkFirst a candidates).Linked R := by
  unfold Table.linkFirst
  split
  · next b hb =>
    have hr := hc b (List.mem_of_find?_eq_some hb)
    exact h.link (List.find?_some hb) hr.1 hr.2
  · exact h

/-! ### Threading a chain -/

theorem mem_of_mem_ringFrom {members : List (List ConnectionId)} {i : Nat} {c : ConnectionId}
    (h : c ∈ ringFrom members i) : c ∈ members.flatten := by
  simp only [ringFrom, List.mem_flatten, List.mem_append] at h ⊢
  obtain ⟨ends, hm, hc⟩ := h
  exact ⟨ends, hm.elim List.mem_of_mem_drop List.mem_of_mem_take, hc⟩

theorem getElem?_unlinkAll (t : Table α) (ends : List ConnectionId) (c : ConnectionId) :
    (ends.foldl unlink t)[c.slot]? =
      if c ∈ ends then t[c.slot]?.map (·.unmatch) else t[c.slot]? := by
  induction ends generalizing t with
  | nil => simp
  | cons a rest ih =>
      rw [List.foldl_cons, ih, getElem?_unlink]
      by_cases hc : a.slot = c.slot
      · have : c = a := ConnectionId.slot_inj.mp hc.symm
        simp [this, Function.comp_def]
      · have : c ≠ a := fun e => hc (by rw [e])
        simp [hc, this]

theorem freed_unlinkAll (t : Table α) (ends : List ConnectionId) :
    freed (ends.foldl unlink t) = t.freed := freed_foldl freed_unlink ends t

/-- Ends may be freed together once they hold the partners of each other. -/
theorem Linked.unlinkAll {R : ConnectionId → ConnectionId → Prop} {t : Table α} (h : t.Linked R)
    {ends : List ConnectionId}
    (closed : ∀ {c p : ConnectionId} {e : Connection α}, c ∈ ends → t[c.slot]? = some e →
      e.partner = some p → p ∈ ends) :
    Linked R (ends.foldl unlink t) := by
  constructor
  · intro c e he
    rw [getElem?_unlinkAll] at he
    split at he
    · obtain ⟨x, -, rfl⟩ := Option.map_eq_some_iff.mp he
      simp [Connection.unmatch]
    · exact h.matched_iff he
  · intro c p e he hp
    rw [getElem?_unlinkAll] at he
    split at he
    · obtain ⟨x, -, rfl⟩ := Option.map_eq_some_iff.mp he
      cases hp
    · next hc =>
      obtain ⟨hr, f, hf, hpf, rest⟩ := h.partners he hp
      have hpc : p ∉ ends := fun hm => hc (closed hm hf hpf)
      exact ⟨hr, f, by rw [getElem?_unlinkAll, if_neg hpc]; exact hf, hpf, rest⟩

/-- Links every source end of a carrier to the first free sink end on its way round. -/
def threadCarrier (members : List (List ConnectionId)) (t : Table α)
    (carrier : List ConnectionId × Nat) : Table α :=
  carrier.1.foldl
    (fun t c => if t.isSource c then t.linkFirst c (ringFrom members carrier.2) else t) t

theorem threadChain_eq (t : Table α) (members : List (List ConnectionId)) :
    t.threadChain members =
      members.zipIdx.foldl (threadCarrier members) (members.flatten.foldl unlink t) := rfl

theorem freed_threadCarrier (members : List (List ConnectionId)) (t : Table α)
    (carrier : List ConnectionId × Nat) : (threadCarrier members t carrier).freed = t.freed := by
  refine freed_foldl (fun t c => ?_) carrier.1 t
  split
  · exact freed_linkFirst t c _
  · rfl

theorem Linked.threadCarrier {R : ConnectionId → ConnectionId → Prop}
    {members : List (List ConnectionId)} {t : Table α} (h : t.Linked R)
    (hR : ∀ a ∈ members.flatten, ∀ b ∈ members.flatten, R a b)
    {carrier : List ConnectionId × Nat} (hc : ∀ c ∈ carrier.1, c ∈ members.flatten) :
    (threadCarrier members t carrier).Linked R := by
  obtain ⟨ends, i⟩ := carrier
  induction ends generalizing t with
  | nil => exact h
  | cons c rest ih =>
      obtain ⟨hcm, hrest⟩ := List.forall_mem_cons.mp hc
      refine ih (t := if t.isSource c then t.linkFirst c (ringFrom members i) else t) ?_ hrest
      split
      · refine h.linkFirst fun b hb => ?_
        have hbm := mem_of_mem_ringFrom hb
        exact ⟨hR c hcm b hbm, hR b hbm c hcm⟩
      · exact h

theorem freed_threadChain (t : Table α) (members : List (List ConnectionId)) :
    (t.threadChain members).freed = t.freed := by
  rw [threadChain_eq, freed_foldl (freed_threadCarrier members), freed_unlinkAll]

theorem Linked.threadChain {R : ConnectionId → ConnectionId → Prop} {t : Table α} (h : t.Linked R)
    {members : List (List ConnectionId)}
    (hR : ∀ a ∈ members.flatten, ∀ b ∈ members.flatten, R a b)
    (closed : ∀ {c p : ConnectionId} {e : Connection α}, c ∈ members.flatten →
      t[c.slot]? = some e → e.partner = some p → p ∈ members.flatten) :
    (t.threadChain members).Linked R := by
  rw [threadChain_eq]
  have start : Linked R (members.flatten.foldl unlink t) := h.unlinkAll closed
  have inside : ∀ carrier ∈ members.zipIdx, ∀ c ∈ carrier.1, c ∈ members.flatten := by
    intro carrier hm c hc
    exact List.mem_flatten.mpr ⟨carrier.1, List.fst_mem_of_mem_zipIdx hm, hc⟩
  generalize members.flatten.foldl unlink t = t₀ at start
  generalize members.zipIdx = carriers at inside
  induction carriers generalizing t₀ with
  | nil => exact start
  | cons carrier rest ih =>
      obtain ⟨hcarrier, hrest⟩ := List.forall_mem_cons.mp inside
      exact ih _ (start.threadCarrier hR hcarrier) hrest

end Graph.Table
end HardwareLinker
