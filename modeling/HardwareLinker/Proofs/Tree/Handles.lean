import Mathlib.Data.List.Nodup
import HardwareLinker.Tree.Basic

/-!
Handles of tree nodes. Every handle below the size of the tree belongs to one node, and the nodes
whose parent is a given node are the children of that node.
-/

namespace HardwareLinker.MergeTree

variable {α : Type}

theorem locate_merge (first : Nat) (parent : Option Nat) (above : List String) (i : Interface α)
    (links : List Link) (exported : Nat) (boundary : Bool) (left right : MergeTree α) :
    (merge i links exported boundary left right).locate first parent above =
      ⟨first + left.size + right.size, parent, above ++ [i.name],
        merge i links exported boundary left right⟩ ::
      (left.locate first (some (first + left.size + right.size)) (above ++ [i.name]) ++
        right.locate (first + left.size) (some (first + left.size + right.size))
          (above ++ [i.name])) := rfl

theorem nodes_locate (first : Nat) (parent : Option Nat) (above : List String)
    (t : MergeTree α) : (t.locate first parent above).map (·.node) = t.preorder := by
  induction t generalizing first parent above with
  | module i => rfl
  | placeholder name => rfl
  | merge i links exported boundary left right ihl ihr =>
      rw [locate_merge, List.map_cons, List.map_append, ihl, ihr]
      rfl

/-- A subtree takes the handles from the first one on. -/
theorem ids_locate (first : Nat) (parent : Option Nat) (above : List String) (t : MergeTree α) :
    ((t.locate first parent above).map (·.id)).Perm (List.range' first t.size) := by
  induction t generalizing first parent above with
  | module i => exact .refl _
  | placeholder name => exact .refl _
  | merge i links exported boundary left right ihl ihr =>
      have hrange : List.range' first (left.size + right.size + 1) =
          (List.range' first left.size ++ List.range' (first + left.size) right.size) ++
            [first + left.size + right.size] := by
        rw [List.range'_append_1, List.range'_concat, Nat.one_mul, Nat.add_assoc]
      rw [locate_merge, List.map_cons, List.map_append, size, hrange]
      exact (((ihl _ _ _).append (ihr _ _ _)).cons _).trans
        (List.perm_append_singleton _ _).symm

theorem id_bounds {first : Nat} {parent : Option Nat} {above : List String} {t : MergeTree α}
    {l : Located α} (h : l ∈ t.locate first parent above) :
    first ≤ l.id ∧ l.id < first + t.size :=
  List.mem_range'_1.mp ((ids_locate first parent above t).subset (List.mem_map_of_mem h))

/-- The node of a subtree whose parent is the given one is the top of the subtree; all others have
their parents inside. -/
theorem parent_locate {first : Nat} {parent : Option Nat} {above : List String}
    {t : MergeTree α} {l : Located α} (h : l ∈ t.locate first parent above) :
    l.parent = parent ∧ l.node = t ∨
      ∃ k ∈ t.locate first parent above, l.parent = some k.id ∧ l.node ∈ k.node.children := by
  induction t generalizing first parent above with
  | module i =>
      cases List.mem_singleton.mp h
      exact .inl ⟨rfl, rfl⟩
  | placeholder name =>
      cases List.mem_singleton.mp h
      exact .inl ⟨rfl, rfl⟩
  | merge i links exported boundary left right ihl ihr =>
      rw [locate_merge] at h ⊢
      rcases List.mem_cons.mp h with rfl | h
      · exact .inl ⟨rfl, rfl⟩
      · refine .inr ?_
        rcases List.mem_append.mp h with h | h
        · rcases ihl h with ⟨hp, hn⟩ | ⟨k, hk, rest⟩
          · exact ⟨_, List.mem_cons_self, hp, hn ▸ List.mem_cons_self⟩
          · exact ⟨k, List.mem_cons_of_mem _ (List.mem_append_left _ hk), rest⟩
        · rcases ihr h with ⟨hp, hn⟩ | ⟨k, hk, rest⟩
          · exact ⟨_, List.mem_cons_self, hp, hn ▸ List.mem_cons_of_mem _ List.mem_cons_self⟩
          · exact ⟨k, List.mem_cons_of_mem _ (List.mem_append_right _ hk), rest⟩

/-- The nodes of a subtree with one parent. -/
def childrenOf (located : List (Located α)) (id : Nat) : List (MergeTree α) :=
  (located.filter (·.parent == some id)).map (·.node)

theorem childrenOf_append (a b : List (Located α)) (id : Nat) :
    childrenOf (a ++ b) id = childrenOf a id ++ childrenOf b id := by
  simp [childrenOf]

theorem childrenOf_cons (l : Located α) (rest : List (Located α)) (id : Nat) :
    childrenOf (l :: rest) id =
      (if l.parent = some id then [l.node] else []) ++ childrenOf rest id := by
  by_cases h : l.parent = some id <;> simp [childrenOf, h]

/-- No node has a parent that is neither in its subtree nor the given one. -/
theorem childrenOf_outside {first : Nat} {parent : Option Nat} {above : List String}
    {t : MergeTree α} {id : Nat} (hid : id < first ∨ first + t.size ≤ id)
    (hp : parent ≠ some id) : childrenOf (t.locate first parent above) id = [] := by
  refine List.map_eq_nil_iff.mpr (List.filter_eq_nil_iff.mpr fun l hl => ?_)
  rw [beq_iff_eq]
  intro he
  rcases parent_locate hl with ⟨h, -⟩ | ⟨k, hk, h, -⟩
  · exact hp (h.symm.trans he)
  · have := id_bounds hk
    rw [he] at h
    cases h
    omega

/-- A parent above the subtree has the whole subtree as its only child there. -/
theorem childrenOf_above {first : Nat} {above : List String} {t : MergeTree α} {id : Nat}
    (hid : first + t.size ≤ id) : childrenOf (t.locate first (some id) above) id = [t] := by
  cases t with
  | module i => simp [childrenOf, locate]
  | placeholder name => simp [childrenOf, locate]
  | merge i links exported boundary left right =>
      have hid : first + (left.size + right.size + 1) ≤ id := hid
      have hne : some (first + left.size + right.size) ≠ some id := fun h => by
        cases h
        omega
      rw [locate_merge, childrenOf_cons, if_pos rfl, childrenOf_append,
        childrenOf_outside (.inr (by omega)) hne, childrenOf_outside (.inr (by omega)) hne]
      rfl

theorem childrenOf_locate {first : Nat} {parent : Option Nat} {above : List String}
    {t : MergeTree α} (hp : ∀ j, parent = some j → first + t.size ≤ j) {l : Located α}
    (h : l ∈ t.locate first parent above) :
    childrenOf (t.locate first parent above) l.id = l.node.children := by
  have free {id : Nat} (hlt : id < first + t.size) : parent ≠ some id := by
    intro he
    have := hp id he
    omega
  have top := free (id_bounds h).2
  induction t generalizing first parent above with
  | module i =>
      cases List.mem_singleton.mp h
      exact (childrenOf_cons _ _ _).trans (by rw [if_neg top]; rfl)
  | placeholder name =>
      cases List.mem_singleton.mp h
      exact (childrenOf_cons _ _ _).trans (by rw [if_neg top]; rfl)
  | merge i links exported boundary left right ihl ihr =>
      have inside (side : MergeTree α) {first' : Nat} {l : Located α} {above' : List String}
          (hs : first' + side.size ≤ first + left.size + right.size)
          (hl : l ∈ side.locate first' (some (first + left.size + right.size)) above') :
          some (first + left.size + right.size) ≠ some l.id := by
        have hb := id_bounds hl
        intro he
        have := Option.some.inj he
        omega
      rw [locate_merge] at h ⊢
      rw [childrenOf_cons, if_neg top, List.nil_append, childrenOf_append]
      rcases List.mem_cons.mp h with rfl | h
      · rw [childrenOf_above (by omega), childrenOf_above (by omega)]
        rfl
      · rcases List.mem_append.mp h with h | h
        · have hne := inside left (by omega) h
          have hb := id_bounds h
          rw [ihl (by rintro j ⟨⟩; omega) h (by rintro id hlt ⟨⟩; omega) hne,
            childrenOf_outside (.inl (by omega)) hne, List.append_nil]
        · have hne := inside right (by omega) h
          have hb := id_bounds h
          rw [ihr (by rintro j ⟨⟩; omega) h (by rintro id hlt ⟨⟩; omega) hne,
            childrenOf_outside (.inr (by omega)) hne, List.nil_append]

/-! ### The whole tree -/

theorem nodes_located (t : MergeTree α) : t.located.map (·.node) = t.preorder :=
  nodes_locate 0 none [] t

theorem ids_located (t : MergeTree α) : (t.located.map (·.id)).Perm (List.range t.size) := by
  rw [List.range_eq_range']
  exact ids_locate 0 none [] t

/-- Parents and children answer each other: a node is the parent of its children and of no other
nodes, and every node but the root is a child of its parent. -/
theorem parents_and_children (t : MergeTree α) :
    (∀ l ∈ t.located, childrenOf t.located l.id = l.node.children) ∧
    ∀ l ∈ t.located, l.parent = none ∧ l.node = t ∨
      ∃ k ∈ t.located, l.parent = some k.id ∧ l.node ∈ k.node.children :=
  ⟨fun _ h => childrenOf_locate (by nofun) h, fun _ h => parent_locate h⟩

end HardwareLinker.MergeTree
