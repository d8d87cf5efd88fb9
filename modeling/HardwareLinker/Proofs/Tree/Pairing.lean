import Mathlib.Data.List.Nodup
import HardwareLinker.Tree.Reconcile
import HardwareLinker.Proofs.Pairs

/-!
How two siblings pair their ports. Pairing loses no port and keeps the order of those that stay
open; every pair has passed the test, and a port that stays open was left out on purpose or finds
nothing on the other side. Closing a ring says the same of one list of ports.
-/

namespace HardwareLinker.Reconcile

open MergeTree

variable {α : Type}

/-! ### The test of two ports -/

/-- The two ports are free ends of one name, and one feeds the other. -/
structure Fits (a b : ChildPort α) : Prop where
  name : a.port.connection.name = b.port.connection.name
  left : a.port.connection.matched = false
  right : b.port.connection.matched = false
  kinds : a.port.connection.kind.complements b.port.connection.kind = true

theorem Fits.linkable {a b : ChildPort α} (h : Fits a b) :
    a.port.connection.linkable b.port.connection = true := by
  simp [Connection.linkable, h.name, h.left, h.right, h.kinds]

theorem fits_of_pairs {a b : ChildPort α} (h : pairs a b = .ok true) :
    Fits a b ∧ a.port.connection.type = b.port.connection.type := by
  unfold pairs Connection.pairs at h
  cases hc : a.port.connection.conflict? b.port.connection with
  | some t => rw [hc] at h; cases h
  | none =>
      rw [hc] at h
      have hl : a.port.connection.linkable b.port.connection = true := by simpa using h
      simp only [Connection.linkable, Bool.and_eq_true, beq_iff_eq, Bool.not_eq_true'] at hl
      obtain ⟨⟨⟨hn, hl⟩, hr⟩, hk⟩ := hl
      refine ⟨⟨hn, hl, hr, hk⟩, ?_⟩
      by_contra hne
      simp only [Connection.conflict?, hn, hne, ne_eq, not_false_eq_true, and_self, if_true] at hc
      split at hc <;> cases hc

theorem not_fits_of_pairs {a b : ChildPort α} (h : pairs a b = .ok false) : ¬ Fits a b := by
  intro hf
  unfold pairs Connection.pairs at h
  cases hc : a.port.connection.conflict? b.port.connection with
  | some t => rw [hc] at h; cases h
  | none =>
      rw [hc] at h
      simp [hf.linkable] at h

/-- The test fails only on ends of one name with different types. -/
theorem pairs_ok {a b : ChildPort α}
    (h : a.port.connection.name = b.port.connection.name →
      a.port.connection.type = b.port.connection.type) :
    pairs a b = .ok (a.port.connection.linkable b.port.connection) := by
  have hc : a.port.connection.conflict? b.port.connection = none := by
    unfold Connection.conflict?
    rw [if_neg]
    exact fun hne => hne.2 (h hne.1)
  unfold pairs Connection.pairs
  rw [hc]

/-! ### Pairing across -/

section Across

variable {test : ChildPort α → ChildPort α → Except Fault Bool}
  {skip : List (PortPair α) → ChildPort α → Bool}

/-- What a pass over further left ports adds to a pairing: pairs, and ports that stay open. -/
structure Crossing (test : ChildPort α → ChildPort α → Except Fault Bool)
    (skip : List (PortPair α) → ChildPort α → Bool) (done : Paired α)
    (ports : List (ChildPort α)) (out : Paired α) (added : List (PortPair α))
    (kept : List (ChildPort α)) : Prop where
  pairs : out.pairs = done.pairs ++ added
  left : out.left = done.left ++ kept
  lefts : (added.map Prod.fst ++ kept).Perm ports
  leftOrder : kept.Sublist ports
  rights : (added.map Prod.snd ++ out.right).Perm done.right
  rightOrder : out.right.Sublist done.right
  passed : ∀ p ∈ added, test p.1 p.2 = .ok true
  wanted : ∀ before p after, added = before ++ p :: after →
    skip (done.pairs ++ before) p.1 = false
  unpaired : ∀ a ∈ kept, (∃ before after, added = before ++ after ∧
    skip (done.pairs ++ before) a = true) ∨ ∀ b ∈ out.right, test a b = .ok false

theorem Crossing.keep {done out : Paired α} {a : ChildPort α} {rest : List (ChildPort α)}
    {added : List (PortPair α)} {kept : List (ChildPort α)}
    (h : Crossing test skip { done with left := done.left ++ [a] } rest out added kept)
    (ha : skip done.pairs a = true ∨ ∀ b ∈ done.right, test a b = .ok false) :
    Crossing test skip done (a :: rest) out added (a :: kept) where
  pairs := h.pairs
  left := by simp [h.left]
  lefts := List.perm_middle.trans (h.lefts.cons a)
  leftOrder := h.leftOrder.cons_cons a
  rights := h.rights
  rightOrder := h.rightOrder
  passed := h.passed
  wanted := h.wanted
  unpaired := by
    refine List.forall_mem_cons.mpr ⟨?_, h.unpaired⟩
    rcases ha with hs | hf
    · exact .inl ⟨[], added, rfl, by simpa using hs⟩
    · exact .inr fun b hb => hf b (h.rightOrder.subset hb)

theorem Crossing.pair {done out : Paired α} {a b : ChildPort α} {rest others : List (ChildPort α)}
    {added : List (PortPair α)} {kept : List (ChildPort α)}
    (h : Crossing test skip { done with pairs := done.pairs ++ [(a, b)], right := others } rest out
      added kept)
    (ha : skip done.pairs a = false) (ht : test a b = .ok true)
    (hp : done.right.Perm (b :: others)) (hs : others.Sublist done.right) :
    Crossing test skip done (a :: rest) out ((a, b) :: added) kept where
  pairs := by simp [h.pairs]
  left := h.left
  lefts := h.lefts.cons a
  leftOrder := h.leftOrder.cons a
  rights := (h.rights.cons b).trans hp.symm
  rightOrder := h.rightOrder.trans hs
  passed := List.forall_mem_cons.mpr ⟨ht, h.passed⟩
  wanted := by
    intro before p after e
    rcases List.cons_eq_append_iff.mp e with ⟨rfl, he⟩ | ⟨before', rfl, he⟩
    · cases he
      simpa using ha
    · simpa using h.wanted before' p after he
  unpaired := by
    intro x hx
    rcases h.unpaired x hx with ⟨before, after, e, hskip⟩ | hf
    · exact .inl ⟨(a, b) :: before, after, by rw [e]; rfl, by simpa using hskip⟩
    · exact .inr hf

theorem pairAcross_spec {done out : Paired α} {ports : List (ChildPort α)}
    (h : pairAcross test skip done ports = .ok out) :
    ∃ added kept, Crossing test skip done ports out added kept := by
  induction ports generalizing done with
  | nil =>
      cases h
      refine ⟨[], [], ?_, ?_, .refl _, .refl _, ?_, .refl _, ?_, ?_, ?_⟩ <;> simp
  | cons a rest ih =>
      simp only [pairAcross] at h
      split at h
      · next hs =>
        obtain ⟨added, kept, hc⟩ := ih h
        exact ⟨added, a :: kept, hc.keep (.inl hs)⟩
      · next hs =>
        split at h
        · cases h
        · next ht =>
          obtain ⟨added, kept, hc⟩ := ih h
          exact ⟨added, a :: kept, hc.keep (.inr (takeFirst_none ht))⟩
        · next b others ht =>
          obtain ⟨added, kept, hc⟩ := ih h
          obtain ⟨hb, hp, hsub⟩ := takeFirst_some ht
          exact ⟨(a, b) :: added, kept, hc.pair (by simpa using hs) hb hp hsub⟩

/-- A relation holds along the pairs if every port that is taken bears it to the pairs before. -/
theorem Crossing.pairwise {done out : Paired α} {ports kept : List (ChildPort α)}
    {added : List (PortPair α)} {R : PortPair α → PortPair α → Prop}
    (h : Crossing test skip done ports out added kept)
    (hR : ∀ before p, skip (done.pairs ++ before) p.1 = false → ∀ q ∈ before, R q p) :
    added.Pairwise R := by
  rw [List.pairwise_iff_getElem]
  intro i j hi hj hij
  have hsplit : added = added.take j ++ added[j] :: added.drop (j + 1) := by
    rw [← List.drop_eq_getElem_cons hj, List.take_append_drop]
  exact hR _ _ (h.wanted _ _ _ hsplit) _ (List.mem_take_iff_getElem.mpr ⟨i, by omega, rfl⟩)

theorem crossing_of_pairAcross {left right : List (ChildPort α)} {out : Paired α}
    (h : pairAcross test skip ⟨[], [], right⟩ left = .ok out) :
    Crossing test skip ⟨[], [], right⟩ left out out.pairs out.left := by
  obtain ⟨added, kept, hc⟩ := pairAcross_spec h
  have hp : out.pairs = added := hc.pairs
  have hl : out.left = kept := hc.left
  rw [hp, hl]
  exact hc

theorem pairAcross_ok {done : Paired α} {ports : List (ChildPort α)}
    (h : ∀ a ∈ ports, ∀ b ∈ done.right, ∃ found, test a b = .ok found) :
    ∃ out, pairAcross test skip done ports = .ok out := by
  induction ports generalizing done with
  | nil => exact ⟨done, rfl⟩
  | cons a rest ih =>
      obtain ⟨ha, hrest⟩ := List.forall_mem_cons.mp h
      simp only [pairAcross]
      split
      · exact ih hrest
      · obtain ⟨r, hr⟩ := takeFirst_ok ha
        rw [hr]
        match r, hr with
        | none, _ => exact ih hrest
        | some (b, others), hr =>
            have hsub := (takeFirst_some hr).2.2
            exact ih fun x hx y hy => hrest x hx y (hsub.subset hy)

end Across

/-! ### Closing a ring -/

/-- The pairs that closing a ring finds, and the ports that stay open. -/
structure RingClosed (ports : List (ChildPort α)) (found : List (PortPair α))
    (kept : List (ChildPort α)) : Prop where
  perm : (found.flatMap (fun p => [p.1, p.2]) ++ kept).Perm ports
  order : kept.Sublist ports
  passed : ∀ p ∈ found, pairs p.1 p.2 = .ok true
  apart : kept.Pairwise fun a b => pairs a b = .ok false

theorem closeRing_spec {ports kept : List (ChildPort α)} {found : List (PortPair α)}
    (h : closeRing ports = .ok (found, kept)) : RingClosed ports found kept := by
  induction hn : ports.length using Nat.strongRecOn generalizing ports found kept with
  | ind n ih =>
      subst hn
      cases ports with
      | nil =>
          rw [closeRing] at h
          cases h
          exact ⟨.refl _, .refl _, by simp, .nil⟩
      | cons a rest =>
          rw [closeRing] at h
          split at h
          · cases h
          · next ht =>
            obtain ⟨⟨f, k⟩, hr, e⟩ := map_eq_ok h
            cases e
            have r := ih rest.length (by simp) hr rfl
            refine ⟨List.perm_middle.trans (r.perm.cons a), r.order.cons_cons a, r.passed, ?_⟩
            exact List.pairwise_cons.mpr
              ⟨fun b hb => takeFirst_none ht b (r.order.subset hb), r.apart⟩
          · next b others ht =>
            obtain ⟨⟨f, k⟩, hr, e⟩ := map_eq_ok h
            cases e
            obtain ⟨hb, hp, hsub⟩ := takeFirst_some ht
            have shorter := length_of_takeFirst ht
            have r := ih others.length (by simp; omega) hr rfl
            refine ⟨?_, (r.order.trans hsub).cons a, ?_, r.apart⟩
            · exact ((r.perm.cons b).trans hp.symm).cons a
            · exact List.forall_mem_cons.mpr ⟨hb, r.passed⟩

/-- Closing a ring fails only on ends of one name with different types. -/
theorem closeRing_ok {ports : List (ChildPort α)}
    (h : ∀ a ∈ ports, ∀ b ∈ ports, ∃ found, pairs a b = .ok found) :
    ∃ r, closeRing ports = .ok r := by
  induction hn : ports.length using Nat.strongRecOn generalizing ports with
  | ind n ih =>
      subst hn
      cases ports with
      | nil => exact ⟨([], []), by rw [closeRing]⟩
      | cons a rest =>
          have hrest : ∀ x ∈ rest, ∀ y ∈ rest, ∃ found, pairs x y = .ok found :=
            fun x hx y hy => h x (List.mem_cons_of_mem a hx) y (List.mem_cons_of_mem a hy)
          obtain ⟨found, hfound⟩ := takeFirst_ok fun b hb =>
            h a List.mem_cons_self b (List.mem_cons_of_mem a hb)
          rw [closeRing]
          split
          · next ht => rw [ht] at hfound; cases hfound
          · obtain ⟨r, hr⟩ := ih rest.length (by simp) hrest rfl
            exact ⟨_, by rw [hr]; rfl⟩
          · next b others ht =>
            have shorter := length_of_takeFirst ht
            have hsub := (takeFirst_some ht).2.2
            obtain ⟨r, hr⟩ := ih others.length (by simp; omega)
              (fun x hx y hy => hrest x (hsub.subset hx) y (hsub.subset hy)) rfl
            exact ⟨_, by rw [hr]; rfl⟩

end HardwareLinker.Reconcile
