import Mathlib.Data.List.Perm.Subperm
import Mathlib.Data.List.Nodup
import HardwareLinker.Proofs.Decimal.Numeral
import HardwareLinker.Tree.Names

/-!
The name supply. A call tries the candidate at the counter and moves the counter on, without a
bound, until a candidate is free. As finitely many names are taken, one is free and the call
returns; what it gives out was not taken before and is taken from then on. Each index below the
counter stands in a name that is taken, so that calls made in turn take at most one attempt for each
of them and one for each reserved name.
-/

namespace HardwareLinker.NameSupply

/-- What is asked of a supply: a name for a merge node, or one for a placeholder. -/
inductive Call where
  | node
  | placeholder
deriving Repr, DecidableEq

def Call.stem : Call → String
  | .node => "lim_node"
  | .placeholder => "lim_empty"

def call (s : NameSupply) : Call → String × NameSupply
  | .node => s.node
  | .placeholder => s.placeholder

/-- The names given out by calls made in turn, and the supply that they leave. -/
def serve (s : NameSupply) : List Call → List String × NameSupply
  | [] => ([], s)
  | c :: calls =>
    let later := serve (s.call c).2 calls
    ((s.call c).1 :: later.1, later.2)

variable {s : NameSupply} {stem stem' : String} {k l n : Nat}

/-! ### Candidates -/

/-- No numeral holds an underscore, so that the last one in a candidate stands in front of its
index. -/
theorem takeWhile_reverse_candidate (stem : String) (k : Nat) :
    (candidate stem k).toList.reverse.takeWhile (· != '_') = (Nat.toDigits 10 k).reverse := by
  have digits : (toString k).toList = Nat.toDigits 10 k := Nat.toList_repr
  have plain : ∀ c ∈ (Nat.toDigits 10 k).reverse, (c != '_') = true := by
    intro c hc
    rw [List.mem_reverse] at hc
    exact bne_iff_ne.mpr fun h => underscore_notMem_toDigits k (h ▸ hc)
  rw [candidate, String.toList_append, String.toList_append, digits, List.reverse_append,
    List.reverse_append, List.takeWhile_append_of_pos plain]
  simp

theorem candidate_inj : candidate stem k = candidate stem' l ↔ stem = stem' ∧ k = l := by
  refine ⟨fun h => ?_, fun ⟨hstem, hindex⟩ => by rw [hstem, hindex]⟩
  have hindex : k = l := by
    have hread := congrArg (fun s : String => s.toList.reverse.takeWhile (· != '_')) h
    simp only [takeWhile_reverse_candidate] at hread
    exact toDigits_injective (List.reverse_injective hread)
  subst hindex
  exact ⟨(String.append_left_inj _).mp ((String.append_left_inj _).mp h), rfl⟩

/-- Candidates of different indices are different names, whatever their stems. -/
theorem length_le_of_candidates {taken : List String} {indices : List Nat} {stem : Nat → String}
    (distinct : indices.Nodup) (mem : ∀ k ∈ indices, candidate (stem k) k ∈ taken) :
    indices.length ≤ taken.length := by
  have hnodup : (indices.map fun k => candidate (stem k) k).Nodup :=
    distinct.map fun k l h => (candidate_inj.mp h).2
  have hsub : (indices.map fun k => candidate (stem k) k) ⊆ taken := by
    intro n hn
    obtain ⟨k, hk, rfl⟩ := List.mem_map.mp hn
    exact mem k hk
  simpa only [List.length_map] using (hnodup.subperm hsub).length_le

/-! ### The first free candidate -/

/-- `k` is the first index from the counter on whose candidate is free. -/
structure FirstFree (s : NameSupply) (stem : String) (k : Nat) : Prop where
  counter_le : s.counter ≤ k
  free : candidate stem k ∉ s.taken
  first : ∀ j, s.counter ≤ j → j < k → candidate stem j ∈ s.taken

theorem FirstFree.unique (h : FirstFree s stem k) (h' : FirstFree s stem l) : k = l := by
  rcases Nat.lt_trichotomy k l with hlt | heq | hgt
  · exact absurd (h'.first k h.counter_le hlt) h.free
  · exact heq
  · exact absurd (h.first l h'.counter_le hgt) h'.free

/-- One more candidate than there are taken names cannot all be taken. -/
theorem exists_free (s : NameSupply) (stem : String) :
    ∃ k ∈ List.range' s.counter (s.taken.length + 1), candidate stem k ∉ s.taken := by
  by_contra hall
  have hall : ∀ k ∈ List.range' s.counter (s.taken.length + 1), candidate stem k ∈ s.taken := by
    intro k hk
    by_contra hfree
    exact hall ⟨k, hk, hfree⟩
  have := length_le_of_candidates List.nodup_range' hall
  rw [List.length_range'] at this
  omega

theorem firstFree_freshIndex (s : NameSupply) (stem : String) :
    FirstFree s stem (s.freshIndex stem) := by
  obtain ⟨k, hk, hfree⟩ := s.exists_free stem
  have hfound : ((List.range' s.counter (s.taken.length + 1)).find? fun k =>
      !s.taken.contains (candidate stem k)).isSome := by
    rw [List.find?_isSome]
    exact ⟨k, hk, by simpa using hfree⟩
  obtain ⟨l, hl⟩ := Option.isSome_iff_exists.mp hfound
  rw [freshIndex, hl]
  obtain ⟨free, range, first⟩ := List.find?_range'_eq_some.mp hl
  exact ⟨(List.mem_range'_1.mp range).1, by simpa using free, by simpa using first⟩

theorem fresh_not_taken (s : NameSupply) (stem : String) : (s.fresh stem).1 ∉ s.taken :=
  (s.firstFree_freshIndex stem).free

/-! ### The loop of a call -/

/-- The call returns after so many attempts: a candidate that is taken only moves the counter on,
one that is free is given out. Nothing bounds the attempts. -/
inductive Tries (stem : String) : NameSupply → Nat → String × NameSupply → Prop
  | free {s : NameSupply} (free : candidate stem s.counter ∉ s.taken) :
      Tries stem s 1 (candidate stem s.counter,
        ⟨candidate stem s.counter :: s.taken, s.counter + 1⟩)
  | taken {s : NameSupply} {n : Nat} {out : String × NameSupply}
      (taken : candidate stem s.counter ∈ s.taken)
      (later : Tries stem { s with counter := s.counter + 1 } n out) : Tries stem s (n + 1) out

theorem fresh_of_free (free : candidate stem s.counter ∉ s.taken) : s.fresh stem =
    (candidate stem s.counter, ⟨candidate stem s.counter :: s.taken, s.counter + 1⟩) := by
  have here : FirstFree s stem s.counter := ⟨Nat.le_refl _, free, fun j hle hlt => by omega⟩
  rw [fresh, (s.firstFree_freshIndex stem).unique here]

theorem freshIndex_of_taken (taken : candidate stem s.counter ∈ s.taken) :
    freshIndex { s with counter := s.counter + 1 } stem = s.freshIndex stem := by
  obtain ⟨counter_le, free, first⟩ := firstFree_freshIndex { s with counter := s.counter + 1 } stem
  have earlier : FirstFree s stem (freshIndex { s with counter := s.counter + 1 } stem) := by
    refine ⟨Nat.le_of_succ_le counter_le, free, fun j hle hlt => ?_⟩
    rcases Nat.eq_or_lt_of_le hle with rfl | hlater
    · exact taken
    · exact first j hlater hlt
  exact earlier.unique (s.firstFree_freshIndex stem)

theorem fresh_of_taken (taken : candidate stem s.counter ∈ s.taken) :
    fresh { s with counter := s.counter + 1 } stem = s.fresh stem := by
  rw [fresh, fresh, freshIndex_of_taken taken]

/-- The loop comes to its end. -/
theorem exists_tries (s : NameSupply) (stem : String) : ∃ n, Tries stem s n (s.fresh stem) := by
  -- The counter comes closer to the index of the first free candidate, which stays the same.
  induction ahead : s.freshIndex stem - s.counter generalizing s with
  | zero =>
      have first := s.firstFree_freshIndex stem
      have here : s.freshIndex stem = s.counter := by have := first.counter_le; omega
      have free : candidate stem s.counter ∉ s.taken := here ▸ first.free
      exact ⟨1, fresh_of_free free ▸ .free free⟩
  | succ ahead' ih =>
      have taken : candidate stem s.counter ∈ s.taken :=
        (s.firstFree_freshIndex stem).first _ (Nat.le_refl _) (by omega)
      have closer :
          freshIndex { s with counter := s.counter + 1 } stem - (s.counter + 1) = ahead' := by
        rw [freshIndex_of_taken taken]
        omega
      obtain ⟨n, later⟩ := ih { s with counter := s.counter + 1 } closer
      exact ⟨n + 1, .taken taken (fresh_of_taken taken ▸ later)⟩

theorem Tries.eq_fresh {out : String × NameSupply} (tries : Tries stem s n out) :
    out = s.fresh stem ∧ out.2.counter = s.counter + n := by
  induction tries with
  | free free => exact ⟨(fresh_of_free free).symm, rfl⟩
  | taken taken _ ih =>
      refine ⟨ih.1.trans (fresh_of_taken taken), ih.2.trans ?_⟩
      dsimp only
      omega

/-! ### Calls in turn -/

theorem call_eq (s : NameSupply) (c : Call) : s.call c = s.fresh c.stem := by
  cases c <;> rfl

/-- Each call returns before the next one is made; they give out these names and take so many
attempts. -/
inductive Serves : NameSupply → List Call → Nat → List String × NameSupply → Prop
  | nil {s : NameSupply} : Serves s [] 0 ([], s)
  | cons {s s' s'' : NameSupply} {c : Call} {calls : List Call} {m n : Nat} {name : String}
      {names : List String} (tries : Tries c.stem s m (name, s'))
      (later : Serves s' calls n (names, s'')) : Serves s (c :: calls) (m + n) (name :: names, s'')

theorem exists_serves (s : NameSupply) (calls : List Call) :
    ∃ n, Serves s calls n (s.serve calls) := by
  induction calls generalizing s with
  | nil => exact ⟨0, .nil⟩
  | cons c calls ih =>
      obtain ⟨m, tries⟩ := s.exists_tries c.stem
      obtain ⟨n, later⟩ := ih (s.call c).2
      exact ⟨m + n, .cons (s.call_eq c ▸ tries) later⟩

theorem Serves.eq_serve {calls : List Call} {out : List String × NameSupply}
    (serves : Serves s calls n out) : out = s.serve calls ∧ out.2.counter = s.counter + n := by
  induction serves with
  | nil => exact ⟨rfl, rfl⟩
  | @cons s _ _ c calls m n name names tries later ih =>
      obtain ⟨first, counter⟩ := tries.eq_fresh
      rw [← call_eq] at first
      refine ⟨?_, ?_⟩
      · simp only [serve, ← first, ← ih.1]
      · have := ih.2
        dsimp only at counter this ⊢
        omega

theorem taken_call (s : NameSupply) (c : Call) : (s.call c).2.taken = (s.call c).1 :: s.taken := by
  rw [call_eq]
  rfl

theorem length_serve (s : NameSupply) (calls : List Call) :
    (s.serve calls).1.length = calls.length := by
  induction calls generalizing s with
  | nil => rfl
  | cons c calls ih => exact congrArg Nat.succ (ih (s.call c).2)

theorem length_taken_serve (s : NameSupply) (calls : List Call) :
    (s.serve calls).2.taken.length = s.taken.length + calls.length := by
  induction calls generalizing s with
  | nil => rfl
  | cons c calls ih =>
      show ((s.call c).2.serve calls).2.taken.length = _
      rw [ih, taken_call, List.length_cons, List.length_cons]
      omega

/-- Names are given out once, and never one that was taken before. -/
theorem serve_distinct (s : NameSupply) (calls : List Call) :
    (s.serve calls).1.Nodup ∧ (s.serve calls).1.Disjoint s.taken := by
  induction calls generalizing s with
  | nil => exact ⟨.nil, List.disjoint_nil_left _⟩
  | cons c calls ih =>
      have new : (s.call c).1 ∉ s.taken := s.call_eq c ▸ s.fresh_not_taken c.stem
      obtain ⟨distinct, apart⟩ := ih (s.call c).2
      rw [taken_call, List.disjoint_cons_right] at apart
      exact ⟨List.nodup_cons.mpr ⟨apart.1, distinct⟩, List.disjoint_cons_left.mpr ⟨new, apart.2⟩⟩

/-! ### Attempts -/

/-- Each index below the counter stands in a name that is taken: it was given out, or it was
skipped. -/
def Spent (s : NameSupply) : Prop :=
  ∀ k < s.counter, ∃ stem, candidate stem k ∈ s.taken

theorem Spent.counter_le (spent : s.Spent) : s.counter ≤ s.taken.length := by
  choose! stem taken using spent
  have each : ∀ k ∈ List.range s.counter, candidate (stem k) k ∈ s.taken :=
    fun k hk => taken k (List.mem_range.mp hk)
  have bound := length_le_of_candidates List.nodup_range each
  rwa [List.length_range] at bound

theorem Spent.fresh (spent : s.Spent) (stem : String) : (s.fresh stem).2.Spent := by
  have first := s.firstFree_freshIndex stem
  intro k hk
  rcases Nat.lt_or_ge k s.counter with hold | hnew
  · obtain ⟨stem', taken⟩ := spent k hold
    exact ⟨stem', List.mem_cons_of_mem _ taken⟩
  · refine ⟨stem, ?_⟩
    rcases Nat.lt_succ_iff_lt_or_eq.mp hk with hskipped | rfl
    · exact List.mem_cons_of_mem _ (first.first k hnew hskipped)
    · exact List.mem_cons_self

theorem Spent.serve (spent : s.Spent) (calls : List Call) : (s.serve calls).2.Spent := by
  induction calls generalizing s with
  | nil => exact spent
  | cons c calls ih => exact ih (s.call_eq c ▸ spent.fresh c.stem)

/-- Whatever names are reserved, calls for names of either sort return in any order: they take the
attempts that the counter has counted, at most one for each call and each reserved name. They give
out as many names as there are calls, no name twice and none that is reserved. -/
theorem reserve_serves_distinct (reserved : List String) (calls : List Call) :
    (∀ n out, Serves (reserve reserved) calls n out ↔
      out = (reserve reserved).serve calls ∧ n = out.2.counter) ∧
    ((reserve reserved).serve calls).2.counter ≤ calls.length + reserved.length ∧
    ((reserve reserved).serve calls).1.length = calls.length ∧
    ((reserve reserved).serve calls).1.Nodup ∧
    ((reserve reserved).serve calls).1.Disjoint reserved := by
  obtain ⟨distinct, apart⟩ := (reserve reserved).serve_distinct calls
  refine ⟨fun n out => ⟨fun serves => ?_, ?_⟩, ?_, length_serve _ _, distinct, apart⟩
  · obtain ⟨served, counter⟩ := serves.eq_serve
    exact ⟨served, (counter.trans (Nat.zero_add n)).symm⟩
  · rintro ⟨rfl, rfl⟩
    obtain ⟨n, serves⟩ := (reserve reserved).exists_serves calls
    have counter : _ = 0 + n := serves.eq_serve.2
    rw [counter, Nat.zero_add]
    exact serves
  · have spent : (reserve reserved).Spent := fun k hk => absurd hk (Nat.not_lt_zero k)
    have bound := (spent.serve calls).counter_le
    rw [length_taken_serve, Nat.add_comm] at bound
    exact bound

example : ((reserve ["lim_empty_0", "lim_node_2", "lim_empty_2"]).serve
    [.placeholder, .node, .placeholder]).1 = ["lim_empty_1", "lim_node_3", "lim_empty_4"] := by
  cbv

end HardwareLinker.NameSupply
