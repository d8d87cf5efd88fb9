import Mathlib.Data.List.Nodup
import HardwareLinker.NameMap

/-!
Membership in finite maps. Every operation is described by the entries it leaves; a look-up finds
exactly the entry of its name, because names ascend.
-/

namespace HardwareLinker

namespace NameMap

variable {β γ : Type}

theorem keys_nodup (m : NameMap β) : m.keys.Nodup := by
  rw [keys, List.nodup_iff_pairwise_ne, List.pairwise_map]
  refine m.ascending.imp ?_
  intro a b h e
  exact String.lt_irrefl _ (e ▸ h)

theorem value_unique (m : NameMap β) {k : String} {v w : β} (hv : (k, v) ∈ m.entries)
    (hw : (k, w) ∈ m.entries) : v = w := by
  have h := List.inj_on_of_nodup_map m.keys_nodup hv hw rfl
  exact (Prod.ext_iff.mp h).2

theorem find?_eq_some {m : NameMap β} {k : String} {v : β} :
    m.find? k = some v ↔ (k, v) ∈ m.entries := by
  simp only [find?, Option.map_eq_some_iff]
  constructor
  · rintro ⟨e, he, rfl⟩
    have hk : e.1 = k := by simpa using List.find?_some he
    exact hk ▸ List.mem_of_find?_eq_some he
  · intro h
    obtain ⟨e, he⟩ := Option.isSome_iff_exists.mp
      (List.find?_isSome.mpr ⟨(k, v), h, by simp⟩ :
        (m.entries.find? fun e => e.1 == k).isSome = true)
    have hk : e.1 = k := by simpa using List.find?_some he
    exact ⟨e, he, m.value_unique (hk ▸ List.mem_of_find?_eq_some he) h⟩

theorem contains_iff {m : NameMap β} {k : String} : m.contains k = true ↔ k ∈ m.keys := by
  simp only [contains, keys, List.any_eq_true, List.mem_map, beq_iff_eq]

theorem mem_keys_of_mem {m : NameMap β} {k : String} {v : β} (h : (k, v) ∈ m.entries) :
    k ∈ m.keys := List.mem_map.mpr ⟨(k, v), h, rfl⟩

theorem mem_values {m : NameMap β} {v : β} : v ∈ m.values ↔ ∃ k, (k, v) ∈ m.entries := by
  simp [values]

theorem mem_values_iff {m : NameMap β} {v : β} : v ∈ m.values ↔ ∃ k, m.find? k = some v := by
  simp only [mem_values, find?_eq_some]

theorem mem_insertEntry_iff {k : String} {v : β} {l : List (String × β)}
    (h : l.Pairwise (fun a b => a.1 < b.1)) {e : String × β} :
    e ∈ insertEntry k v l ↔ e = (k, v) ∨ e ∈ l ∧ e.1 ≠ k := by
  induction l with
  | nil => simp [insertEntry]
  | cons d rest ih =>
      obtain ⟨hd, hr⟩ := List.pairwise_cons.mp h
      have ne_of_lt {a b : String} (hab : a < b) : a ≠ b := fun e => String.lt_irrefl _ (e ▸ hab)
      simp only [insertEntry]
      split
      · next hk =>
        have hne : ∀ x ∈ d :: rest, x.1 ≠ k := by
          intro x hx
          rcases List.mem_cons.mp hx with rfl | hx
          · exact (ne_of_lt hk).symm
          · exact (ne_of_lt (String.lt_trans hk (hd x hx))).symm
        rw [List.mem_cons]
        exact or_congr Iff.rfl ⟨fun hx => ⟨hx, hne e hx⟩, And.left⟩
      · split
        · next hk =>
          rw [List.mem_cons, ih hr, List.mem_cons]
          constructor
          · rintro (rfl | rfl | ⟨hx, hne⟩)
            · exact .inr ⟨.inl rfl, ne_of_lt hk⟩
            · exact .inl rfl
            · exact .inr ⟨.inr hx, hne⟩
          · rintro (rfl | ⟨rfl | hx, hne⟩)
            · exact .inr (.inl rfl)
            · exact .inl rfl
            · exact .inr (.inr ⟨hx, hne⟩)
        · next h₁ h₂ =>
          have hk : k = d.1 := by
            rcases lt_trichotomy k d.1 with h | h | h
            · exact absurd h h₁
            · exact h
            · exact absurd h h₂
          rw [List.mem_cons, List.mem_cons]
          refine or_congr Iff.rfl ⟨fun hx => ⟨.inr hx, ?_⟩, ?_⟩
          · rw [hk]
            exact (ne_of_lt (hd e hx)).symm
          · rintro ⟨rfl | hx, hne⟩
            · exact absurd hk.symm hne
            · exact hx

theorem mem_insert {m : NameMap β} {k : String} {v : β} {e : String × β} :
    e ∈ (m.insert k v).entries ↔ e = (k, v) ∨ e ∈ m.entries ∧ e.1 ≠ k :=
  mem_insertEntry_iff m.ascending

theorem mem_mapValues {m : NameMap β} {f : String → β → γ} {k : String} {w : γ} :
    (k, w) ∈ (m.mapValues f).entries ↔ ∃ v, (k, v) ∈ m.entries ∧ w = f k v := by
  simp only [mapValues, List.mem_map, Prod.mk.injEq]
  constructor
  · rintro ⟨⟨k, v⟩, h, rfl, rfl⟩
    exact ⟨v, h, rfl⟩
  · rintro ⟨v, h, rfl⟩
    exact ⟨(k, v), h, rfl, rfl⟩

theorem size_mapValues (f : String → β → γ) (m : NameMap β) : (m.mapValues f).size = m.size :=
  List.length_map _

theorem mapValues_insert (f : String → β → γ) (m : NameMap β) (k : String) (v : β) :
    (m.insert k v).mapValues f = (m.mapValues f).insert k (f k v) := by
  apply ext_entries
  simp only [mapValues, insert]
  generalize m.entries = l
  induction l with
  | nil => rfl
  | cons e rest ih =>
      simp only [insertEntry, List.map_cons]
      split
      · rfl
      · split
        · rw [List.map_cons, ih]
        · rfl

theorem mem_keys_insert {m : NameMap β} {k k' : String} {v : β} :
    k' ∈ (m.insert k v).keys ↔ k' = k ∨ k' ∈ m.keys := by
  simp only [keys, List.mem_map, Prod.exists, mem_insert, Prod.mk.injEq, exists_and_right,
    exists_eq_right]
  constructor
  · rintro ⟨w, ⟨rfl, -⟩ | ⟨h, -⟩⟩
    · exact .inl rfl
    · exact .inr ⟨w, h⟩
  · intro h
    by_cases hk : k' = k
    · exact ⟨v, .inl ⟨hk, rfl⟩⟩
    · obtain ⟨w, hw⟩ := h.resolve_left hk
      exact ⟨w, .inr ⟨hw, hk⟩⟩

theorem size_insert {m : NameMap β} {k : String} {v : β} (hk : k ∉ m.keys) :
    (m.insert k v).size = m.size + 1 := by
  have perm : (m.insert k v).keys.Perm (k :: m.keys) := by
    refine (List.perm_ext_iff_of_nodup (keys_nodup _)
      (List.nodup_cons.mpr ⟨hk, m.keys_nodup⟩)).mpr ?_
    intro k'
    rw [mem_keys_insert, List.mem_cons]
  simpa only [keys, size, List.length_map, List.length_cons] using perm.length_eq

theorem mem_keys_insertAll {m : NameMap β} {l : List (String × β)} {k : String} :
    k ∈ (m.insertAll l).keys ↔ k ∈ m.keys ∨ k ∈ l.map Prod.fst := by
  induction l generalizing m with
  | nil => simp [insertAll]
  | cons e rest ih =>
      change k ∈ ((m.insert e.1 e.2).insertAll rest).keys ↔ _
      rw [ih, mem_keys_insert, List.map_cons, List.mem_cons, or_assoc, or_left_comm]

/-- Maps with the same bindings list the same entries in the same order. -/
theorem entries_eq_of_mem {l l' : List (String × β)} (hl : l.Pairwise fun a b => a.1 < b.1)
    (hl' : l'.Pairwise fun a b => a.1 < b.1) (h : ∀ e, e ∈ l ↔ e ∈ l') : l = l' := by
  have distinct {l : List (String × β)} (hl : l.Pairwise fun a b => a.1 < b.1) : l.Nodup := by
    rw [List.nodup_iff_pairwise_ne]
    refine hl.imp ?_
    intro a b hlt e
    exact String.lt_irrefl _ (e ▸ hlt)
  have perm : l.Perm l' := (List.perm_ext_iff_of_nodup (distinct hl) (distinct hl')).mpr h
  refine perm.eq_of_pairwise ?_ hl hl'
  intro a b _ _ hab hba
  exact absurd (String.lt_trans hab hba) (String.lt_irrefl _)

theorem keys_eq_of_mem {m : NameMap β} {m' : NameMap γ} (h : ∀ k, k ∈ m.keys ↔ k ∈ m'.keys) :
    m.keys = m'.keys := by
  have perm : m.keys.Perm m'.keys :=
    (List.perm_ext_iff_of_nodup m.keys_nodup m'.keys_nodup).mpr h
  have sorted {δ : Type} (m : NameMap δ) : m.keys.Pairwise (· < ·) := by
    rw [keys, List.pairwise_map]
    exact m.ascending
  refine perm.eq_of_pairwise ?_ (sorted m) (sorted m')
  intro a b _ _ hab hba
  exact absurd (String.lt_trans hab hba) (String.lt_irrefl _)

theorem ext_find? {a b : NameMap β} (h : ∀ k, a.find? k = b.find? k) : a = b := by
  apply ext_entries
  apply entries_eq_of_mem a.ascending b.ascending
  intro e
  obtain ⟨k, v⟩ := e
  rw [← find?_eq_some, ← find?_eq_some, h]

theorem mem_keys_iff {m : NameMap β} {k : String} : k ∈ m.keys ↔ ∃ v, m.find? k = some v := by
  simp [keys, find?_eq_some]

theorem find?_insert (m : NameMap β) (k k' : String) (v : β) :
    (m.insert k v).find? k' = if k' = k then some v else m.find? k' := by
  apply Option.ext
  intro w
  rw [find?_eq_some, mem_insert]
  split
  · next h => simp [h, eq_comm]
  · next h => simp [h, find?_eq_some]

theorem find?_mapValues (f : String → β → γ) (m : NameMap β) (k : String) :
    (m.mapValues f).find? k = (m.find? k).map (f k) := by
  apply Option.ext
  intro w
  rw [find?_eq_some, mem_mapValues, Option.map_eq_some_iff]
  refine exists_congr fun v => ?_
  rw [find?_eq_some, eq_comm]

theorem find?_modify (m : NameMap β) (k k' : String) (f : β → β) :
    (m.modify k f).find? k' = if k' = k then (m.find? k').map f else m.find? k' := by
  rw [modify, find?_mapValues]
  cases m.find? k' <;> split <;> simp_all

theorem contains_eq_isSome (m : NameMap β) (k : String) : m.contains k = (m.find? k).isSome := by
  rw [Bool.eq_iff_iff, contains_iff, mem_keys_iff, Option.isSome_iff_exists]

/-- A new name that contributes nothing leaves a list over all entries as it is. -/
theorem flatMap_insert_of_nil {m : NameMap β} {k : String} {v : β} (hk : k ∉ m.keys)
    {f : String × β → List γ} (hf : f (k, v) = []) :
    (m.insert k v).entries.flatMap f = m.entries.flatMap f := by
  have fold (l : List (String × β)) (hl : k ∉ l.map Prod.fst) :
      (insertEntry k v l).flatMap f = l.flatMap f := by
    induction l with
    | nil => simp [insertEntry, hf]
    | cons d rest ih =>
        simp only [List.map_cons, List.mem_cons, not_or] at hl
        simp only [insertEntry]
        split
        · simp [hf]
        · split
          · simp [ih hl.2]
          · next h₁ h₂ =>
            refine absurd ?_ hl.1
            exact (lt_trichotomy k d.1).elim (absurd · h₁) (·.elim id (absurd · h₂))
  exact fold m.entries hk

/-- What the lists of a map hold after one more item. -/
theorem mem_append {m : NameMap (List β)} {k k' : String} {v x : β} :
    (∃ l, (k', l) ∈ (m.append k v).entries ∧ x ∈ l) ↔
      k' = k ∧ x = v ∨ ∃ l, (k', l) ∈ m.entries ∧ x ∈ l := by
  have old : x ∈ (m.find? k).getD [] ↔ ∃ l, (k, l) ∈ m.entries ∧ x ∈ l := by
    simp only [← find?_eq_some]
    cases m.find? k <;> simp
  simp only [append, mem_insert, Prod.mk.injEq]
  constructor
  · rintro ⟨l, ⟨rfl, rfl⟩ | ⟨h, -⟩, hx⟩
    · rcases List.mem_append.mp hx with hx | hx
      · exact .inr (old.mp hx)
      · exact .inl ⟨rfl, List.mem_singleton.mp hx⟩
    · exact .inr ⟨l, h, hx⟩
  · rintro (⟨rfl, rfl⟩ | ⟨l, h, hx⟩)
    · exact ⟨_, .inl ⟨rfl, rfl⟩, List.mem_append_right _ List.mem_cons_self⟩
    · by_cases hk : k' = k
      · subst hk
        exact ⟨_, .inl ⟨rfl, rfl⟩, List.mem_append_left _ (old.mpr ⟨l, h, hx⟩)⟩
      · exact ⟨l, .inr ⟨h, hk⟩, hx⟩

/-! ### Properties of all bindings -/

/-- Every binding has the property. -/
def Each (P : String → β → Prop) (m : NameMap β) : Prop := ∀ k v, m.find? k = some v → P k v

section
variable {P : String → β → Prop} {m : NameMap β} {k : String}

theorem Each.empty : (empty : NameMap β).Each P := by
  intro k v found
  cases found

theorem Each.insert (each : m.Each P) {v : β} (hv : P k v) : (m.insert k v).Each P := by
  intro k' w found
  rw [find?_insert] at found
  split at found
  · next same =>
    cases found
    exact same ▸ hv
  · exact each k' w found

theorem Each.mapValues {Q : String → γ → Prop} {f : String → β → γ} (each : m.Each P)
    (hf : ∀ k v, P k v → Q k (f k v)) : (m.mapValues f).Each Q := by
  intro k w found
  rw [find?_mapValues, Option.map_eq_some_iff] at found
  obtain ⟨v, found, rfl⟩ := found
  exact hf k v (each k v found)

theorem Each.modify (each : m.Each P) {f : β → β} (hf : ∀ v, P k v → P k (f v)) :
    (m.modify k f).Each P := by
  refine each.mapValues fun k' v hv => ?_
  split
  · next same =>
    obtain rfl := beq_iff_eq.mp same
    exact hf v hv
  · exact hv

end

/-- The two maps bind the same names, to related values. -/
def Related (R : β → γ → Prop) (m : NameMap β) (m' : NameMap γ) : Prop :=
  ∀ k, Option.Rel R (m.find? k) (m'.find? k)

section
variable {R : β → γ → Prop} {m : NameMap β} {m' : NameMap γ} {k : String}

theorem Related.refl {R : β → β → Prop} (hR : ∀ v, R v v) (m : NameMap β) : Related R m m := by
  intro k
  cases m.find? k with
  | none => exact .none
  | some v => exact .some (hR v)

theorem Related.image (related : Related R m m') {v : β} (found : m.find? k = some v) :
    ∃ w, m'.find? k = some w ∧ R v w := by
  have here := related k
  rw [found] at here
  cases after : m'.find? k with
  | none =>
      rw [after] at here
      cases here
  | some w =>
      rw [after] at here
      cases here with
      | some related => exact ⟨w, rfl, related⟩

theorem Related.origin (related : Related R m m') {w : γ} (found : m'.find? k = some w) :
    ∃ v, m.find? k = some v ∧ R v w := by
  have here := related k
  rw [found] at here
  cases before : m.find? k with
  | none =>
      rw [before] at here
      cases here
  | some v =>
      rw [before] at here
      cases here with
      | some related => exact ⟨v, rfl, related⟩

theorem Related.find?_eq_none (related : Related R m m') (absent : m.find? k = none) :
    m'.find? k = none := by
  cases after : m'.find? k with
  | none => rfl
  | some w =>
      obtain ⟨v, found, -⟩ := related.origin after
      rw [absent] at found
      cases found

theorem Related.keys_eq (related : Related R m m') : m'.keys = m.keys := by
  have names : m'.mapValues (fun _ _ => ()) = m.mapValues fun _ _ => () := by
    apply ext_find?
    intro k
    rw [find?_mapValues, find?_mapValues]
    cases before : m.find? k with
    | none => rw [related.find?_eq_none before]; rfl
    | some v =>
        obtain ⟨w, after, -⟩ := related.image before
        rw [after]
        rfl
  have keys {δ : Type} (m : NameMap δ) : (m.mapValues fun _ _ => ()).keys = m.keys := by
    rw [NameMap.keys, NameMap.mapValues, List.map_map]
    rfl
  rw [← keys m', names, keys m]

theorem Related.mapValues {δ : Type} {S : β → δ → Prop} {f : String → γ → δ}
    (related : Related R m m') (hf : ∀ k v w, m.find? k = some v → R v w → S v (f k w)) :
    Related S m (m'.mapValues f) := by
  intro k
  rw [find?_mapValues]
  have here := related k
  cases before : m.find? k with
  | none =>
      rw [before] at here
      cases after : m'.find? k with
      | none => exact .none
      | some w =>
          rw [after] at here
          cases here
  | some v =>
      obtain ⟨w, after, hw⟩ := related.image before
      rw [after]
      exact .some (hf k v w before hw)

theorem Related.insert_both (related : Related R m m') {v : β} {w : γ} (hw : R v w) :
    Related R (m.insert k v) (m'.insert k w) := by
  intro k'
  rw [find?_insert, find?_insert]
  split
  · exact .some hw
  · exact related k'

theorem Related.insert (related : Related R m m') {v : β} {w : γ} (found : m.find? k = some v)
    (hw : R v w) : Related R m (m'.insert k w) := by
  intro k'
  rw [find?_insert]
  split
  · next same =>
    rw [same, found]
    exact .some hw
  · exact related k'

end

end NameMap

theorem NameSet.mem_toList_ofList {names : List String} {n : String} :
    n ∈ (NameSet.ofList names).toList ↔ n ∈ names := by
  unfold NameSet.ofList NameSet.toList NameMap.ofList
  rw [NameMap.mem_keys_insertAll]
  simp [NameMap.keys, NameMap.empty]

end HardwareLinker
