import Mathlib.Data.List.Nodup
import HardwareLinker.Pairs
import HardwareLinker.Proofs.Except

/-!
Which pairs the nested loops meet: two different items of a list meet once, in the order of the
list, and a search that may fail either finds its first item or has seen every item fail the test.
-/

namespace HardwareLinker

variable {β γ ε : Type}

theorem mem_crossPairs {l : List β} {r : List γ} {a : β} {b : γ} :
    (a, b) ∈ crossPairs (l, r) ↔ a ∈ l ∧ b ∈ r := by
  simp [crossPairs]

theorem mem_of_mem_orderedPairs {l : List β} {x y : β} (h : (x, y) ∈ orderedPairs l) :
    x ∈ l ∧ y ∈ l := by
  induction l with
  | nil => simp [orderedPairs] at h
  | cons a rest ih =>
      rcases List.mem_append.mp h with h | h
      · obtain ⟨z, hz, e⟩ := List.mem_map.mp h
        cases e
        exact ⟨List.mem_cons_self, List.mem_cons_of_mem _ hz⟩
      · exact ⟨List.mem_cons_of_mem _ (ih h).1, List.mem_cons_of_mem _ (ih h).2⟩

theorem rel_of_mem_orderedPairs {R : β → β → Prop} {l : List β} (hl : l.Pairwise R) {x y : β}
    (h : (x, y) ∈ orderedPairs l) : R x y := by
  induction l with
  | nil => simp [orderedPairs] at h
  | cons a rest ih =>
      obtain ⟨ha, hr⟩ := List.pairwise_cons.mp hl
      rcases List.mem_append.mp h with h | h
      · obtain ⟨z, hz, e⟩ := List.mem_map.mp h
        cases e
        exact ha _ hz
      · exact ih hr h

/-- Two different items of a list meet in one of the two orders. -/
theorem orderedPairs_total {l : List β} {x y : β} (hx : x ∈ l) (hy : y ∈ l) (hne : x ≠ y) :
    (x, y) ∈ orderedPairs l ∨ (y, x) ∈ orderedPairs l := by
  induction l with
  | nil => simp at hx
  | cons a rest ih =>
      simp only [orderedPairs, List.mem_append, List.mem_map, Prod.mk.injEq]
      rcases List.mem_cons.mp hx with rfl | hx' <;> rcases List.mem_cons.mp hy with rfl | hy'
      · exact absurd rfl hne
      · exact .inl (.inl ⟨y, hy', rfl, rfl⟩)
      · exact .inr (.inl ⟨x, hx', rfl, rfl⟩)
      · exact (ih hx' hy').imp .inr .inr

/-- The pairs of a list in order come by their first items, then by their second ones. -/
theorem pairwise_orderedPairs {R : β → β → Prop} {l : List β} (hl : l.Pairwise R) :
    (orderedPairs l).Pairwise fun x y => R x.1 y.1 ∨ x.1 = y.1 ∧ R x.2 y.2 := by
  induction l with
  | nil => exact .nil
  | cons a rest ih =>
      obtain ⟨ha, hr⟩ := List.pairwise_cons.mp hl
      refine List.pairwise_append.mpr ⟨?_, ih hr, ?_⟩
      · rw [List.pairwise_map]
        exact hr.imp fun h => .inr ⟨rfl, h⟩
      · intro x hx y hy
        obtain ⟨z, -, rfl⟩ := List.mem_map.mp hx
        exact .inl (ha _ (mem_of_mem_orderedPairs hy).1)

theorem pairwise_crossPairs {R : β → β → Prop} {S : γ → γ → Prop} {l : List β} {r : List γ}
    (hl : l.Pairwise R) (hr : r.Pairwise S) :
    (crossPairs (l, r)).Pairwise fun x y => R x.1 y.1 ∨ x.1 = y.1 ∧ S x.2 y.2 := by
  refine List.pairwise_flatMap.mpr ⟨fun a _ => ?_, hl.imp fun {a b} h x hx y hy => ?_⟩
  · rw [List.pairwise_map]
    exact hr.imp fun h => .inr ⟨rfl, h⟩
  · obtain ⟨-, -, rfl⟩ := List.mem_map.mp hx
    obtain ⟨-, -, rfl⟩ := List.mem_map.mp hy
    exact .inl h

/-- Items of a list without a repetition come in the order of their positions. -/
theorem pairwise_positions {l : List β} (hl : l.Nodup) :
    l.Pairwise fun a b => ∀ i j : Nat, l[i]? = some a → l[j]? = some b → i < j := by
  refine List.pairwise_iff_getElem.mpr fun m n hm hn less i j hi hj => ?_
  have position {i m : Nat} (hm : m < l.length) (hi : l[i]? = some l[m]) : i = m := by
    have bound := (List.getElem?_eq_some_iff.mp hi).1
    exact (List.getElem?_inj bound hl).mp (hi.trans (List.getElem?_eq_getElem hm).symm)
  rwa [position hm hi, position hn hj]

theorem mem_orderedPairs_range {n s t : Nat} :
    (s, t) ∈ orderedPairs (List.range n) ↔ s < t ∧ t < n := by
  constructor
  · intro h
    exact ⟨rel_of_mem_orderedPairs List.pairwise_lt_range h,
      List.mem_range.mp (mem_of_mem_orderedPairs h).2⟩
  · intro ⟨hst, ht⟩
    have total := orderedPairs_total (List.mem_range.mpr (Nat.lt_trans hst ht))
      (List.mem_range.mpr ht) (Nat.ne_of_lt hst)
    refine total.resolve_right fun back => ?_
    exact Nat.lt_asymm hst (rel_of_mem_orderedPairs List.pairwise_lt_range back)

theorem pairwise_zipIdx (l : List β) : l.zipIdx.Pairwise fun a b => a.2 < b.2 := by
  rw [← List.pairwise_map, List.zipIdx_map_snd]
  exact List.pairwise_lt_range' 1

/-- The pairs of a numbered list are those of two positions, the earlier one first. -/
theorem mem_orderedPairs_zipIdx {l : List β} {x y : β} {i j : Nat} :
    ((x, i), (y, j)) ∈ orderedPairs l.zipIdx ↔ i < j ∧ l[i]? = some x ∧ l[j]? = some y := by
  have ascending := pairwise_zipIdx l
  constructor
  · intro h
    obtain ⟨hx, hy⟩ := mem_of_mem_orderedPairs h
    exact ⟨rel_of_mem_orderedPairs ascending h, List.mem_zipIdx_iff_getElem?.mp hx,
      List.mem_zipIdx_iff_getElem?.mp hy⟩
  · rintro ⟨hij, hx, hy⟩
    have hx : (x, i) ∈ l.zipIdx := List.mem_zipIdx_iff_getElem?.mpr hx
    have hy : (y, j) ∈ l.zipIdx := List.mem_zipIdx_iff_getElem?.mpr hy
    have different : (x, i) ≠ (y, j) := fun e => Nat.ne_of_lt hij (congrArg Prod.snd e)
    refine (orderedPairs_total hx hy different).resolve_right fun back => ?_
    exact Nat.lt_asymm hij (rel_of_mem_orderedPairs ascending back)

theorem orderedPairs_map (f : β → γ) (l : List β) :
    orderedPairs (l.map f) = (orderedPairs l).map (Prod.map f f) := by
  induction l with
  | nil => rfl
  | cons a rest ih => simp [orderedPairs, ih, Function.comp_def]

theorem mem_orderedPairs_filter {l : List β} {x y : β} (h : (x, y) ∈ orderedPairs l)
    (p : β → Bool) (hx : p x = true) (hy : p y = true) : (x, y) ∈ orderedPairs (l.filter p) := by
  induction l with
  | nil => simp [orderedPairs] at h
  | cons a rest ih =>
      rcases List.mem_append.mp h with h | h
      · obtain ⟨z, hz, e⟩ := List.mem_map.mp h
        cases e
        rw [List.filter_cons_of_pos hx]
        exact List.mem_append_left _ (List.mem_map.mpr ⟨y, List.mem_filter.mpr ⟨hz, hy⟩, rfl⟩)
      · by_cases ha : p a = true
        · rw [List.filter_cons_of_pos ha]
          exact List.mem_append_right _ (ih h)
        · rw [List.filter_cons_of_neg ha]
          exact ih h

theorem orderedPairs_subset {l l' : List β} (h : l.Sublist l') :
    orderedPairs l ⊆ orderedPairs l' := by
  induction h with
  | slnil => exact List.Subset.refl _
  | cons a _ ih => exact List.subset_append_of_subset_right _ ih
  | cons_cons a h ih =>
      exact List.append_subset.mpr
        ⟨List.subset_append_of_subset_left _ (List.map_subset _ h.subset),
          List.subset_append_of_subset_right _ ih⟩

theorem map_eq_ok {f : β → γ} {x : Except ε β} {y : γ} (h : x.map f = .ok y) :
    ∃ b, x = .ok b ∧ f b = y :=
  map_eq_ok_iff.mp h

theorem bind_eq_ok {f : β → Except ε γ} {x : Except ε β} {y : γ} (h : x >>= f = .ok y) :
    ∃ b, x = .ok b ∧ f b = .ok y :=
  bind_eq_ok_iff.mp h

theorem toOption_eq_some {x : Except ε β} {y : β} : x.toOption = some y ↔ x = .ok y := by
  cases x <;> simp [Except.toOption]

theorem mapError_eq_ok_iff {ε' : Type} {f : ε → ε'} {x : Except ε β} {y : β} :
    x.mapError f = .ok y ↔ x = .ok y := by
  cases x <;> simp [Except.mapError]

theorem takeFirst_none {test : β → Except ε Bool} {l : List β}
    (h : takeFirst test l = .ok none) : ∀ b ∈ l, test b = .ok false := by
  induction l with
  | nil => simp
  | cons a rest ih =>
      simp only [takeFirst] at h
      split at h
      · cases h
      · cases h
      · next ha =>
        obtain ⟨r, hr, hnone⟩ := map_eq_ok h
        cases r with
        | some p => cases hnone
        | none => exact List.forall_mem_cons.mpr ⟨ha, ih hr⟩

theorem takeFirst_some {test : β → Except ε Bool} {l others : List β} {b : β}
    (h : takeFirst test l = .ok (some (b, others))) :
    test b = .ok true ∧ l.Perm (b :: others) ∧ others.Sublist l := by
  induction l generalizing others with
  | nil => cases h
  | cons a rest ih =>
      simp only [takeFirst] at h
      split at h
      · cases h
      · next ha =>
        cases h
        exact ⟨ha, .refl _, List.sublist_cons_self _ _⟩
      · obtain ⟨r, hr, hsome⟩ := map_eq_ok h
        cases r with
        | none => cases hsome
        | some p =>
            obtain ⟨c, left⟩ := p
            cases hsome
            obtain ⟨hb, hp, hs⟩ := ih hr
            exact ⟨hb, (hp.cons a).trans (.swap _ a left), hs.cons_cons a⟩

/-- A search fails only where the test does. -/
theorem takeFirst_ok {test : β → Except ε Bool} {l : List β}
    (h : ∀ b ∈ l, ∃ found, test b = .ok found) : ∃ r, takeFirst test l = .ok r := by
  induction l with
  | nil => exact ⟨none, rfl⟩
  | cons a rest ih =>
      obtain ⟨⟨found, ha⟩, hr⟩ := List.forall_mem_cons.mp h
      obtain ⟨r, hr⟩ := ih hr
      cases found with
      | true => exact ⟨_, by simp only [takeFirst, ha]; rfl⟩
      | false => exact ⟨_, by simp only [takeFirst, ha, hr]; rfl⟩

end HardwareLinker
