import Mathlib.Data.List.Nodup
import HardwareLinker.Cut.Flow

/-!
Breadth-first search in a network. The search leaves levels behind: every node but the source was
reached from a node one level below, no usable edge climbs more than one level, and a reached node
has a level below the number of nodes. The fuel of the search is enough to empty its queue.
-/

namespace HardwareLinker.Capacities

variable {α : Type} [Scalar α]

/-! ### Marking the neighbours of a node -/

theorem reached_iff {source : Nat} {parents : Parents} {v : Nat} :
    reached source parents v = true ↔ v = source ∨ ∃ u, parents.getD v none = some u := by
  simp [reached, Option.isSome_iff_exists]

/-- The parents after some nodes got the parent `u`. -/
def mark (u : Nat) (found : List Nat) (parents : Parents) : Parents :=
  found.foldl (fun p v => p.setIfInBounds v (some u)) parents

@[simp] theorem size_mark (u : Nat) (found : List Nat) (parents : Parents) :
    (mark u found parents).size = parents.size := by
  induction found generalizing parents with
  | nil => rfl
  | cons w rest ih => exact (ih _).trans Array.size_setIfInBounds

theorem getD_mark {u : Nat} {found : List Nat} {parents : Parents}
    (hsize : ∀ w ∈ found, w < parents.size) (v : Nat) :
    (mark u found parents).getD v none = if v ∈ found then some u else parents.getD v none := by
  induction found generalizing parents with
  | nil => simp [mark]
  | cons w rest ih =>
      obtain ⟨hw, hrest⟩ := List.forall_mem_cons.mp hsize
      have step : (parents.setIfInBounds w (some u)).getD v none =
          if v = w then some u else parents.getD v none := by
        simp only [Array.getD_eq_getD_getElem?, Array.getElem?_setIfInBounds]
        by_cases h : w = v
        · subst h
          simp [hw]
        · rw [if_neg h, if_neg (Ne.symm h)]
      show (mark u rest (parents.setIfInBounds w (some u))).getD v none = _
      rw [ih (by simpa using hrest), step]
      by_cases hv : v ∈ rest <;> by_cases he : v = w <;> simp [hv, he]

theorem reached_mark {source u : Nat} {found : List Nat} {parents : Parents}
    (hsize : ∀ w ∈ found, w < parents.size) {v : Nat} :
    reached source (mark u found parents) v = true ↔
      reached source parents v = true ∨ v ∈ found := by
  rw [reached_iff, reached_iff, getD_mark hsize]
  by_cases h : v ∈ found <;> simp [h]

def fresh (c : Capacities α) (source u : Nat) (parents : Parents) : List Nat :=
  (List.range c.nodes).filter fun v => !reached source parents v && c.usable u v

theorem mem_fresh {c : Capacities α} {source u : Nat} {parents : Parents} {v : Nat} :
    v ∈ c.fresh source u parents ↔
      v < c.nodes ∧ reached source parents v = false ∧ c.usable u v = true := by
  simp [fresh]

theorem searchFrom_cons (c : Capacities α) (source fuel : Nat) (parents : Parents) (u : Nat)
    (queue : List Nat) :
    c.searchFrom source (fuel + 1) parents (u :: queue) =
      c.searchFrom source fuel (mark u (c.fresh source u parents) parents)
        (queue ++ c.fresh source u parents) := rfl

/-! ### Levels -/

def reachedCount (c : Capacities α) (source : Nat) (parents : Parents) : Nat :=
  (List.range c.nodes).countP (reached source parents)

omit [Scalar α] in
theorem reachedCount_le (c : Capacities α) (source : Nat) (parents : Parents) :
    c.reachedCount source parents ≤ c.nodes :=
  Nat.le_trans List.countP_le_length (Nat.le_of_eq List.length_range)

/-- The state of a search: the queue holds reached nodes in the order of their levels, and only
edges from queued nodes may still lead to unreached ones. Levels are not computed; they explain the
parents. -/
structure Levelled (c : Capacities α) (source : Nat) (parents : Parents) (queue : List Nat)
    (level : Nat → Nat) : Prop where
  size : parents.size = c.nodes
  source_level : level source = 0
  source_free : parents.getD source none = none
  parent : ∀ {u v : Nat}, parents.getD v none = some u → v < c.nodes ∧
    reached source parents u = true ∧ c.usable u v = true ∧ level v = level u + 1
  closed : ∀ {u v : Nat}, reached source parents u = true → u ∉ queue → v < c.nodes →
    c.usable u v = true → reached source parents v = true ∧ level v ≤ level u + 1
  queued : ∀ {u : Nat}, u ∈ queue → reached source parents u = true
  ordered : queue.Pairwise fun u v => level u ≤ level v
  span : ∀ {u v : Nat}, u ∈ queue → reached source parents v = true → level v ≤ level u + 1
  deep : ∀ {v : Nat}, reached source parents v = true → level v < c.reachedCount source parents

theorem levelled_start (c : Capacities α) {source : Nat} (hs : source < c.nodes) :
    c.Levelled source (Array.replicate c.nodes none) [source] fun _ => 0 := by
  have unset (v : Nat) : (Array.replicate c.nodes (none : Option Nat)).getD v none = none := by
    rw [Array.getD_eq_getD_getElem?, Array.getElem?_replicate]
    split <;> rfl
  have only {v : Nat} : reached source (Array.replicate c.nodes none) v = true ↔ v = source := by
    simp only [reached_iff, unset, reduceCtorEq, exists_false, or_false]
  have count : 0 < c.reachedCount source (Array.replicate c.nodes none) :=
    List.countP_pos_iff.mpr ⟨source, List.mem_range.mpr hs, only.mpr rfl⟩
  constructor
  · simp
  · rfl
  · exact unset source
  · intro u v h
    simp [unset] at h
  · intro u v h hq
    exact absurd (List.mem_singleton.mpr (only.mp h)) hq
  · intro u h
    exact only.mpr (List.mem_singleton.mp h)
  · exact List.pairwise_singleton _ _
  · intros
    omega
  · exact fun _ => count

theorem reachedCount_mark {c : Capacities α} {source u : Nat} {parents : Parents}
    (hsize : parents.size = c.nodes) :
    c.reachedCount source (mark u (c.fresh source u parents) parents) =
      c.reachedCount source parents + (c.fresh source u parents).length := by
  have hin : ∀ w ∈ c.fresh source u parents, w < parents.size :=
    fun w hw => hsize ▸ (mem_fresh.mp hw).1
  have split (l : List Nat) (hl : ∀ v ∈ l, v < c.nodes) :
      l.countP (reached source (mark u (c.fresh source u parents) parents)) =
        l.countP (reached source parents) +
          (l.filter fun v => !reached source parents v && c.usable u v).length := by
    induction l with
    | nil => rfl
    | cons v rest ih =>
        obtain ⟨hv, hrest⟩ := List.forall_mem_cons.mp hl
        have hmark : reached source (mark u (c.fresh source u parents) parents) v = true ↔
            reached source parents v = true ∨ v ∈ c.fresh source u parents := reached_mark hin
        rw [mem_fresh] at hmark
        rw [List.countP_cons, List.countP_cons, List.filter_cons, ih hrest]
        cases hr : reached source parents v <;> cases hu : c.usable u v <;>
          simp [hr, hu, hv] at hmark <;> simp [hmark] <;> omega
  exact split _ fun v hv => List.mem_range.mp hv

/-- The level after the node `u` was expanded. -/
def relevel (level : Nat → Nat) (u : Nat) (found : List Nat) (v : Nat) : Nat :=
  if v ∈ found then level u + 1 else level v

theorem relevel_of_mem {level : Nat → Nat} {u v : Nat} {found : List Nat} (hv : v ∈ found) :
    relevel level u found v = level u + 1 := if_pos hv

theorem relevel_of_reached {c : Capacities α} {source u v : Nat} {parents : Parents}
    {level : Nat → Nat} (hv : reached source parents v = true) :
    relevel level u (c.fresh source u parents) v = level v := by
  refine if_neg fun hf => ?_
  rw [(mem_fresh.mp hf).2.1] at hv
  cases hv

section Expansion

variable {c : Capacities α} {source u : Nat} {parents : Parents} {queue : List Nat}
  {level : Nat → Nat}

/-- An edge from a node that is not queued behind the first one leads to a reached node, unless it
is about to be found. -/
theorem Levelled.closed_or_fresh (h : c.Levelled source parents (u :: queue) level) {w v : Nat}
    (hw : reached source parents w = true) (hq : w ∉ queue) (hlt : v < c.nodes)
    (huse : c.usable w v = true) :
    reached source parents v = true ∧ level v ≤ level w + 1 ∨
      w = u ∧ v ∈ c.fresh source u parents := by
  by_cases hwu : w = u
  · subst hwu
    cases hv : reached source parents v with
    | true => exact .inl ⟨rfl, h.span List.mem_cons_self hv⟩
    | false => exact .inr ⟨rfl, mem_fresh.mpr ⟨hlt, hv, huse⟩⟩
  · exact .inl (h.closed hw (fun hm => (List.mem_cons.mp hm).elim hwu hq) hlt huse)

theorem Levelled.fresh_lt (h : c.Levelled source parents (u :: queue) level) :
    ∀ w ∈ c.fresh source u parents, w < parents.size := by
  intro w hw
  rw [h.size]
  exact (mem_fresh.mp hw).1

theorem Levelled.reached_expand (h : c.Levelled source parents (u :: queue) level) {v : Nat} :
    reached source (mark u (c.fresh source u parents) parents) v = true ↔
      reached source parents v = true ∨ v ∈ c.fresh source u parents :=
  reached_mark h.fresh_lt

theorem Levelled.parent_expand (h : c.Levelled source parents (u :: queue) level) {w v : Nat}
    (hw : (mark u (c.fresh source u parents) parents).getD v none = some w) :
    v < c.nodes ∧ reached source parents w = true ∧ c.usable w v = true ∧
      relevel level u (c.fresh source u parents) v = level w + 1 := by
  rw [getD_mark h.fresh_lt] at hw
  split at hw
  · next hv =>
    cases hw
    obtain ⟨hlt, -, huse⟩ := mem_fresh.mp hv
    exact ⟨hlt, h.queued List.mem_cons_self, huse, relevel_of_mem hv⟩
  · next hv =>
    obtain ⟨hlt, hr, huse, hl⟩ := h.parent hw
    refine ⟨hlt, hr, huse, ?_⟩
    rw [relevel, if_neg hv, hl]

/-- New nodes are one level deeper than `u`, so no reached node is deeper. -/
theorem Levelled.relevel_le (h : c.Levelled source parents (u :: queue) level) {v : Nat}
    (hv : reached source (mark u (c.fresh source u parents) parents) v = true) :
    relevel level u (c.fresh source u parents) v ≤ level u + 1 := by
  cases h.reached_expand.mp hv with
  | inl hv =>
      rw [relevel_of_reached hv]
      exact h.span List.mem_cons_self hv
  | inr hv => exact Nat.le_of_eq (relevel_of_mem hv)

theorem Levelled.le_relevel (h : c.Levelled source parents (u :: queue) level) {w : Nat}
    (hw : w ∈ queue ++ c.fresh source u parents) :
    level u ≤ relevel level u (c.fresh source u parents) w := by
  cases List.mem_append.mp hw with
  | inl hw =>
      rw [relevel_of_reached (h.queued (List.mem_cons_of_mem u hw))]
      exact List.rel_of_pairwise_cons h.ordered hw
  | inr hw =>
      rw [relevel_of_mem hw]
      exact Nat.le_succ _

theorem Levelled.ordered_expand (h : c.Levelled source parents (u :: queue) level) :
    (queue ++ c.fresh source u parents).Pairwise fun v w =>
      relevel level u (c.fresh source u parents) v ≤
        relevel level u (c.fresh source u parents) w := by
  have keep {v : Nat} (hv : v ∈ queue) :
      relevel level u (c.fresh source u parents) v = level v :=
    relevel_of_reached (h.queued (List.mem_cons_of_mem u hv))
  refine List.pairwise_append.mpr ⟨?_, ?_, ?_⟩
  · refine (List.pairwise_cons.mp h.ordered).2.imp_of_mem fun ha hb hab => ?_
    rwa [keep ha, keep hb]
  · refine List.pairwise_of_forall_mem_list fun v hv w hw => Nat.le_of_eq ?_
    rw [relevel_of_mem hv, relevel_of_mem hw]
  · intro v hv w hw
    rw [keep hv, relevel_of_mem hw]
    exact h.span List.mem_cons_self (h.queued (List.mem_cons_of_mem u hv))

theorem Levelled.closed_expand (h : c.Levelled source parents (u :: queue) level) {w v : Nat}
    (hw : reached source (mark u (c.fresh source u parents) parents) w = true)
    (hq : w ∉ queue ++ c.fresh source u parents) (hlt : v < c.nodes) (huse : c.usable w v = true) :
    reached source (mark u (c.fresh source u parents) parents) v = true ∧
      relevel level u (c.fresh source u parents) v ≤
        relevel level u (c.fresh source u parents) w + 1 := by
  rw [List.mem_append, not_or] at hq
  have hwr := (h.reached_expand.mp hw).resolve_right hq.2
  rw [relevel_of_reached hwr]
  cases h.closed_or_fresh hwr hq.1 hlt huse with
  | inl old =>
      refine ⟨h.reached_expand.mpr (.inl old.1), ?_⟩
      rw [relevel_of_reached old.1]
      exact old.2
  | inr found =>
      obtain ⟨rfl, hf⟩ := found
      exact ⟨h.reached_expand.mpr (.inr hf), Nat.le_of_eq (relevel_of_mem hf)⟩

/-- A new node is counted for the first time, so the count keeps up with the levels. -/
theorem Levelled.deep_expand (h : c.Levelled source parents (u :: queue) level) {v : Nat}
    (hv : reached source (mark u (c.fresh source u parents) parents) v = true) :
    relevel level u (c.fresh source u parents) v <
      c.reachedCount source (mark u (c.fresh source u parents) parents) := by
  rw [reachedCount_mark h.size]
  cases h.reached_expand.mp hv with
  | inl hv =>
      rw [relevel_of_reached hv]
      exact Nat.lt_of_lt_of_le (h.deep hv) (Nat.le_add_right _ _)
  | inr hv =>
      have hpos := List.length_pos_of_mem hv
      have hdeep := h.deep (h.queued List.mem_cons_self)
      rw [relevel_of_mem hv]
      omega

theorem Levelled.expand (h : c.Levelled source parents (u :: queue) level) :
    c.Levelled source (mark u (c.fresh source u parents) parents)
      (queue ++ c.fresh source u parents) (relevel level u (c.fresh source u parents)) := by
  have hsource : reached source parents source = true := reached_iff.mpr (.inl rfl)
  exact {
    size := by rw [size_mark, h.size]
    source_level := by rw [relevel_of_reached hsource, h.source_level]
    source_free := by
      rw [getD_mark h.fresh_lt, if_neg, h.source_free]
      intro hf
      simp [(mem_fresh.mp hf).2.1] at hsource
    parent := by
      intro w v hw
      obtain ⟨hlt, hr, huse, hl⟩ := h.parent_expand hw
      exact ⟨hlt, h.reached_expand.mpr (.inl hr), huse, by rw [hl, relevel_of_reached hr]⟩
    closed := h.closed_expand
    queued := fun hw => h.reached_expand.mpr <|
      (List.mem_append.mp hw).imp_left fun hq => h.queued (List.mem_cons_of_mem u hq)
    ordered := h.ordered_expand
    span := fun hw hv => Nat.le_trans (h.relevel_le hv) (Nat.succ_le_succ (h.le_relevel hw))
    deep := h.deep_expand }

end Expansion

/-- Every expansion takes one node from the queue, and every node enters the queue once. -/
theorem Levelled.searchFrom {c : Capacities α} {source fuel : Nat} {parents : Parents}
    {queue : List Nat} {level : Nat → Nat} (h : c.Levelled source parents queue level)
    (hfuel : queue.length + c.nodes ≤ fuel + c.reachedCount source parents) :
    ∃ level', c.Levelled source (c.searchFrom source fuel parents queue) [] level' := by
  induction fuel generalizing parents queue level with
  | zero =>
      have hcount := c.reachedCount_le source parents
      have hq : queue = [] := List.length_eq_zero_iff.mp (by omega)
      subst hq
      exact ⟨level, h⟩
  | succ fuel ih =>
      cases queue with
      | nil => exact ⟨level, h⟩
      | cons u rest =>
          rw [searchFrom_cons]
          refine ih h.expand ?_
          rw [reachedCount_mark h.size, List.length_append]
          simp only [List.length_cons] at hfuel
          omega

/-- Fuel that lasts until the queue is empty does not matter. -/
theorem Levelled.searchFrom_extra {c : Capacities α} {source fuel : Nat} {parents : Parents}
    {queue : List Nat} {level : Nat → Nat} (h : c.Levelled source parents queue level)
    (hfuel : queue.length + c.nodes ≤ fuel + c.reachedCount source parents) (extra : Nat) :
    c.searchFrom source (fuel + extra) parents queue = c.searchFrom source fuel parents queue := by
  induction fuel generalizing parents queue level with
  | zero =>
      have hcount := c.reachedCount_le source parents
      have hq : queue = [] := List.length_eq_zero_iff.mp (by omega)
      subst hq
      cases extra <;> simp [Capacities.searchFrom]
  | succ fuel ih =>
      rw [Nat.succ_add]
      cases queue with
      | nil => rfl
      | cons u rest =>
          rw [searchFrom_cons, searchFrom_cons]
          refine ih h.expand ?_
          rw [reachedCount_mark h.size, List.length_append]
          simp only [List.length_cons] at hfuel
          omega

theorem search_fuel (c : Capacities α) {source : Nat} (hs : source < c.nodes) :
    [source].length + c.nodes ≤
      c.nodes + c.reachedCount source (Array.replicate c.nodes none) := by
  have count : 0 < c.reachedCount source (Array.replicate c.nodes none) :=
    Nat.lt_of_le_of_lt (Nat.zero_le _) ((levelled_start c hs).deep (reached_iff.mpr (.inl rfl)))
  simp only [List.length_singleton]
  omega

theorem levelled_search (c : Capacities α) {source : Nat} (hs : source < c.nodes) :
    ∃ level, c.Levelled source (c.search source) [] level :=
  (levelled_start c hs).searchFrom (c.search_fuel hs)

theorem Levelled.level_lt {c : Capacities α} {source : Nat} {parents : Parents}
    {queue : List Nat} {level : Nat → Nat} (h : c.Levelled source parents queue level) {v : Nat}
    (hv : reached source parents v = true) : level v < c.nodes :=
  Nat.lt_of_lt_of_le (h.deep hv) (c.reachedCount_le source parents)

end HardwareLinker.Capacities
