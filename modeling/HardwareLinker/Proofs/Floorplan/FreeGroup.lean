import HardwareLinker.Proofs.Floorplan.Blocks

/-!
A group of the batch in the model. Once its binaries select one candidate size and its variables
hold a centre, the model sees the group as placed with that size there, and what the model says
about it is that it lies on the chip.
-/

namespace HardwareLinker

theorem Dimension.fixed?_eq_some {α : Type} {d : Dimension α} {s : Size α} :
    d.fixed? = some s ↔ d = .fixed s := by
  cases d <;> simp [fixed?]

theorem AreaGroup.bounds?_place (g : AreaGroup Rat) (x y : Rat) (s : Size Rat) :
    (g.place x y s).bounds? =
      some ⟨x - s.width / 2, y - s.height / 2, x + s.width / 2, y + s.height / 2⟩ := by
  simp [bounds?, place, centre?, Dimension.fixed?]
  norm_num

theorem AreaGroup.exists_of_bounds? {g : AreaGroup Rat} {b : Bounds Rat}
    (seen : g.bounds? = some b) :
    ∃ x y s, g.x = some x ∧ g.y = some y ∧ g.dimension = .fixed s ∧
      b = ⟨x - s.width / 2, y - s.height / 2, x + s.width / 2, y + s.height / 2⟩ := by
  have two : (2.0 : Rat) = 2 := by norm_num
  simp only [bounds?, centre?, Option.bind_eq_bind, Option.bind_eq_some_iff, Option.pure_def,
    Option.some.injEq, Dimension.fixed?_eq_some, two] at seen
  obtain ⟨-, ⟨x, hx, y, hy, rfl⟩, s, size, rfl⟩ := seen
  exact ⟨x, y, s, hx, hy, size, rfl⟩

namespace Floorplan

open Milp

/-- A group with one of its candidate sizes, by position, and a centre. -/
structure Pick where
  group : AreaGroup Rat
  candidate : Nat
  x : Rat
  y : Rat

namespace Pick

/-- The group has the candidate, all its candidates are proper sizes, and where the file fixes a
coordinate the pick keeps it. -/
structure Suits (c : Pick) : Prop where
  candidate : c.candidate < c.group.dimension.choices.length
  positive : ∀ s ∈ c.group.dimension.choices, 0 < s.width ∧ 0 < s.height
  x : ∀ x ∈ c.group.x, c.x = x
  y : ∀ y ∈ c.group.y, c.y = y

instance (c : Pick) : Decidable c.Suits :=
  decidable_of_iff (c.candidate < c.group.dimension.choices.length ∧
      (∀ s ∈ c.group.dimension.choices, 0 < s.width ∧ 0 < s.height) ∧
      (∀ x ∈ c.group.x, c.x = x) ∧ ∀ y ∈ c.group.y, c.y = y)
    ⟨fun h => ⟨h.1, h.2.1, h.2.2.1, h.2.2.2⟩, fun h => ⟨h.candidate, h.positive, h.x, h.y⟩⟩

/-- The group with this size and centre. -/
def placed (c : Pick) : AreaGroup Rat :=
  match c.group.dimension.choices[c.candidate]? with
  | some s => c.group.place c.x c.y s
  | none => c.group

theorem Suits.size {c : Pick} (suits : c.Suits) :
    ∃ s, c.group.dimension.choices[c.candidate]? = some s ∧ 0 < s.width ∧ 0 < s.height :=
  ⟨_, List.getElem?_eq_getElem suits.candidate, suits.positive _ (List.getElem_mem _)⟩

theorem placed_eq {c : Pick} {s : Size Rat}
    (hs : c.group.dimension.choices[c.candidate]? = some s) :
    c.placed = c.group.place c.x c.y s := by
  simp [placed, hs]

/-- The values of the variables of the group, in order. -/
def values (c : Pick) : List Rat :=
  (List.range c.group.dimension.choices.length).map (fun k => if k = c.candidate then 1 else 0) ++
    [c.x, c.y]

end Pick

/-- The chip as a rectangle. -/
def chipBounds (chip : Size Rat) : Bounds Rat := ⟨0, 0, chip.width, chip.height⟩

variable {a : Assignment Rat}

namespace Geometry

/-- Under the assignment the model sees the placed group `g`. -/
structure Shows (geo : Geometry Rat) (a : Assignment Rat) (g : AreaGroup Rat) : Prop where
  name : geo.name = g.name
  emptyBox : geo.emptyBox = g.isEmptyBox
  parent : geo.parent = g.parent
  bounds : g.bounds? = some (geo.bounds a)

/-- The assignment selects the candidate of the pick and no other one, and has its centre. -/
def Takes (geo : Geometry Rat) (a : Assignment Rat) (c : Pick) : Prop :=
  ∃ choice, geo.choice = some choice ∧ choice.sizes.map Prod.snd = c.group.dimension.choices ∧
    a.value choice.x = c.x ∧ a.value choice.y = c.y ∧
    ∀ k v s, choice.sizes[k]? = some (v, s) → a.value v = if k = c.candidate then 1 else 0

end Geometry

variable {chip : Size Rat} {i first : Nat} {c : Pick} {s : Size Rat}

theorem lists_values : a.Lists first c.values ↔
    (∀ k < c.group.dimension.choices.length,
      a.value (first + k) = if k = c.candidate then 1 else 0) ∧
    a.value (first + c.group.dimension.choices.length) = c.x ∧
    a.value (first + c.group.dimension.choices.length + 1) = c.y := by
  rw [Assignment.Lists, Pick.values, EachFrom.append, List.length_map, List.length_range,
    EachFrom.cons, EachFrom.singleton]
  refine and_congr_left' ⟨fun h k hk => h k _ (by simp [hk]), fun h k x hx => ?_⟩
  obtain ⟨k', hk', rfl⟩ := List.mem_map.mp (List.mem_of_getElem? hx)
  obtain ⟨hk, hx⟩ := List.getElem?_eq_some_iff.mp hx
  simp only [List.length_map, List.length_range] at hk
  rw [h k hk, ← hx]
  simp

theorem Pick.Suits.proper (suits : c.Suits) : ∃ r, c.placed.bounds? = some r ∧ r.Proper := by
  obtain ⟨s, hs, wide, high⟩ := suits.size
  refine ⟨_, placed_eq hs ▸ AreaGroup.bounds?_place .., ?_, ?_⟩
  · change c.x - s.width / 2 < c.x + s.width / 2
    linarith
  · change c.y - s.height / 2 < c.y + s.height / 2
    linarith

/-! ### The geometry -/

section Form

variable {α : Type} {chip : Size α} {g : AreaGroup α} {i first : Nat}

/-- The selecting variables with their sizes. -/
def selectors (first : Nat) (g : AreaGroup α) : List (Nat × Size α) :=
  g.dimension.choices.zipIdx.map fun (s, k) => (first + k, s)

theorem getElem?_selectors {k v : Nat} {s : Size α} :
    (selectors first g)[k]? = some (v, s) ↔ g.dimension.choices[k]? = some s ∧ v = first + k := by
  simp [selectors, List.getElem?_map, List.getElem?_zipIdx, eq_comm]

theorem map_snd_selectors : (selectors first g).map Prod.snd = g.dimension.choices := by
  simp [selectors, Function.comp_def]

variable [Scalar α]

theorem freeGroup_choice : (freeGroup chip i first g).1.choice =
    some ⟨first + g.dimension.choices.length, first + g.dimension.choices.length + 1,
      selectors first g⟩ := rfl

/-- The values that a coordinate may have: the one that the file fixes, or all up to a limit. -/
def coordinateRange (fixed : Option α) (limit : α) : α × α :=
  match fixed with
  | some c => (c, c)
  | none => (0, limit)

theorem freeGroup_vars : (freeGroup chip i first g).2.vars =
    g.dimension.choices.zipIdx.map (fun e => binary s!"s_{i}_{e.2}") ++
      [continuous s!"x_{i}" (coordinateRange g.x chip.width).1 (coordinateRange g.x chip.width).2,
        continuous s!"y_{i}" (coordinateRange g.y chip.height).1
          (coordinateRange g.y chip.height).2] := by
  cases hx : g.x <;> cases hy : g.y <;> simp [freeGroup, coordinateRange, hx, hy]

theorem freeGroup_rows : (freeGroup chip i first g).2.rows =
    let geo := (freeGroup chip i first g).1
    [⟨s!"pick_{i}", (selectors first g).map fun e => (e.1, 1), .equal, 1⟩,
      (geo.centreX.plus (-1) geo.halfWidth).row s!"left_{i}" .atLeast 0,
      (geo.centreX.plus 1 geo.halfWidth).row s!"right_{i}" .atMost chip.width,
      (geo.centreY.plus (-1) geo.halfHeight).row s!"bottom_{i}" .atLeast 0,
      (geo.centreY.plus 1 geo.halfHeight).row s!"top_{i}" .atMost chip.height] := rfl

end Form

theorem freeGroup_takes :
    (freeGroup chip i first c.group).1.Takes a c ↔ a.Lists first c.values := by
  rw [lists_values]
  constructor
  · rintro ⟨choice, hchoice, -, hx, hy, selected⟩
    rw [freeGroup_choice, Option.some.injEq] at hchoice
    subst hchoice
    refine ⟨fun k hk => ?_, hx, hy⟩
    exact selected k _ _ (getElem?_selectors.mpr ⟨List.getElem?_eq_getElem hk, rfl⟩)
  · rintro ⟨selected, hx, hy⟩
    refine ⟨_, freeGroup_choice, ?_, hx, hy, fun k v s hk => ?_⟩
    · exact map_snd_selectors
    · obtain ⟨hs, rfl⟩ := getElem?_selectors.mp hk
      exact selected k (List.getElem?_eq_some_iff.mp hs).1

/-- A sum over the selecting variables is what it has for the selected size. -/
theorem sum_selectors (f : Size Rat → Rat) (hs : c.group.dimension.choices[c.candidate]? = some s)
    (lists : a.Lists first c.values) :
    ((selectors first c.group).map fun e => f e.2 * a.value e.1).sum = f s := by
  obtain ⟨hc, rfl⟩ := List.getElem?_eq_some_iff.mp hs
  rw [← sum_selected f c.group.dimension.choices 0 c.candidate hc, selectors, List.map_map]
  congr 1
  refine List.map_congr_left fun e he => ?_
  have := List.snd_lt_of_mem_zipIdx he
  simp [(lists_values.mp lists).1 e.2 (by simpa using this)]

/-- What the expressions of the group come to. -/
theorem freeGroup_eval (chip : Size Rat) (i : Nat)
    (hs : c.group.dimension.choices[c.candidate]? = some s) (lists : a.Lists first c.values) :
    ((freeGroup chip i first c.group).1.centreX.eval a = c.x ∧
      (freeGroup chip i first c.group).1.centreY.eval a = c.y) ∧
    (freeGroup chip i first c.group).1.halfWidth.eval a = s.width / 2 ∧
    (freeGroup chip i first c.group).1.halfHeight.eval a = s.height / 2 := by
  obtain ⟨-, hx, hy⟩ := lists_values.mp lists
  exact ⟨⟨(Linear.eval_ofVariable _).trans hx, (Linear.eval_ofVariable _).trans hy⟩,
    (eval_halfExtent ..).trans (sum_selectors (fun s => s.width / 2) hs lists),
    (eval_halfExtent ..).trans (sum_selectors (fun s => s.height / 2) hs lists)⟩

theorem freeGroup_shows (chip : Size Rat) (i : Nat) (suits : c.Suits)
    (lists : a.Lists first c.values) :
    (freeGroup chip i first c.group).1.Shows a c.placed := by
  obtain ⟨s, hs, -⟩ := suits.size
  obtain ⟨⟨centreX, centreY⟩, halfWidth, halfHeight⟩ :=
    freeGroup_eval chip i hs lists
  rw [Pick.placed_eq hs]
  refine ⟨rfl, rfl, rfl, ?_⟩
  rw [Geometry.bounds, centreX, centreY, halfWidth, halfHeight, AreaGroup.bounds?_place]

theorem allowsFrom_selectors (lists : a.Lists first c.values) :
    AllowsFrom (c.group.dimension.choices.zipIdx.map fun e => binary s!"s_{i}_{e.2}") first a := by
  intro k v hv
  obtain ⟨e, he, rfl⟩ := List.mem_map.mp (List.mem_of_getElem? hv)
  obtain ⟨hk, -⟩ := List.getElem?_eq_some_iff.mp hv
  rw [binary_allows, (lists_values.mp lists).1 k (by simpa using hk)]
  split
  · exact .inr rfl
  · exact .inl rfl

theorem pick_holds (hs : c.group.dimension.choices[c.candidate]? = some s)
    (lists : a.Lists first c.values) {name : String} :
    Row.Holds ⟨name, (selectors first c.group).map fun e => (e.1, 1), .equal, 1⟩ a := by
  have one := sum_selectors (fun _ => 1) hs lists
  simpa [Row.Holds, Terms.eval, Scalar.sum_eq, Function.comp_def] using one

theorem coordinate_allows {fixed : Option Rat} {limit x half : Rat} (name : String)
    (keeps : ∀ f ∈ fixed, x = f) (positive : 0 < half) (low : 0 ≤ x - half)
    (high : x + half ≤ limit) :
    (continuous name (coordinateRange fixed limit).1 (coordinateRange fixed limit).2).Allows x := by
  rw [continuous_allows]
  cases fixed with
  | some f => simp [coordinateRange, keeps f rfl]
  | none => constructor <;> dsimp only [coordinateRange] <;> linarith

/-- The model says of the group that it lies on the chip. -/
theorem freeGroup_holdsAt (suits : c.Suits) (lists : a.Lists first c.values) :
    (freeGroup chip i first c.group).2.HoldsAt first a ↔
      ((freeGroup chip i first c.group).1.bounds a).Within (chipBounds chip) := by
  obtain ⟨s, hs, positive⟩ := suits.size
  have rows : (∀ r ∈ (freeGroup chip i first c.group).2.rows, r.Holds a) ↔
      ((freeGroup chip i first c.group).1.bounds a).Within (chipBounds chip) := by
    simp only [freeGroup_rows, List.forall_mem_cons, List.not_mem_nil, false_imp_iff, implies_true,
      and_true, pick_holds hs lists, true_and, Linear.row_atLeast_holds, Linear.row_atMost_holds,
      Linear.eval_plus, Geometry.bounds, chipBounds, Bounds.Within]
    constructor
    · rintro ⟨left, right, bottom, top⟩
      refine ⟨?_, ?_, ?_, ?_⟩ <;> linarith
    · rintro ⟨left, right, bottom, top⟩
      refine ⟨?_, ?_, ?_, ?_⟩ <;> linarith
  rw [Block.holdsAt_iff, rows, and_iff_right_iff_imp]
  -- a group on the chip keeps to the ranges of its coordinates
  obtain ⟨⟨centreX, centreY⟩, halfWidth, halfHeight⟩ :=
    freeGroup_eval chip i hs lists
  obtain ⟨-, hx, hy⟩ := lists_values.mp lists
  rw [Geometry.bounds, centreX, centreY, halfWidth, halfHeight]
  rintro ⟨left, right, bottom, top⟩
  have inX := coordinate_allows s!"x_{i}" suits.x (div_pos positive.1 two_pos) left right
  have inY := coordinate_allows s!"y_{i}" suits.y (div_pos positive.2 two_pos) bottom top
  rw [freeGroup_vars, AllowsFrom, EachFrom.append, EachFrom.cons, EachFrom.singleton,
    List.length_map, List.length_zipIdx, hx, hy]
  exact ⟨allowsFrom_selectors lists, inX, inY⟩

end Floorplan
end HardwareLinker
